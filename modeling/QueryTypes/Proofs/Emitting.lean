import QueryTypes.Proofs.ShapeNames
import QueryTypes.Proofs.StructuralTypes
import QueryTypes.Proofs.WrittenTypes

namespace QueryTypes

open ResponseField

def Options.forTarget (options : Options) (target : Target) : Options :=
  { options with addTypename := options.addTypename || target.addsTypename }

def Document.prepare (schema : Schema) (adds : Bool) (document : Document) : Except Error Document :=
  if adds then document.withDiscriminators schema else .ok document

namespace Schema

variable {schema : Schema} {document : Option Document} {target : Target} {options : Options}
  {artifacts : Artifacts}

theorem generate_eq (schema : Schema) (document : Option Document) (target : Target) (options : Options) :
    schema.generate document target options = do
      options.validate
      let valid ← schema.validDocument document target
      let prepared ← valid.prepare schema (options.forTarget target).addTypename
      let compiled ← prepared.compile schema (options.forTarget target)
      let source ← Emission.source ⟨compiled, options.forTarget target, document.isNone⟩ target
      return ⟨source, if options.operationIds then some compiled.idsJson.toText else none⟩ := by
  unfold generate Options.forTarget Document.prepare
  cases options.addTypename || target.addsTypename <;> rfl

theorem generate_eq_ok (done : schema.generate document target options = .ok artifacts) :
    ∃ valid prepared compiled, schema.validDocument document target = .ok valid ∧
      valid.prepare schema (options.forTarget target).addTypename = .ok prepared ∧
      prepared.compile schema (options.forTarget target) = .ok compiled ∧
      Emission.source ⟨compiled, options.forTarget target, document.isNone⟩ target =
        .ok artifacts.source := by
  rw [generate_eq] at done
  obtain ⟨_, _, done⟩ := bind_eq_ok.mp done
  obtain ⟨valid, isValid, done⟩ := bind_eq_ok.mp done
  obtain ⟨prepared, prepares, done⟩ := bind_eq_ok.mp done
  obtain ⟨compiled, compiles, done⟩ := bind_eq_ok.mp done
  obtain ⟨source, written, done⟩ := bind_eq_ok.mp done
  cases done
  exact ⟨valid, prepared, compiled, isValid, prepares, compiles, written⟩

end Schema

section Succeeds

variable {ε α β : Type}

def Succeeds (x : Except ε α) : Prop := FailsOnly (fun _ => False) x

theorem succeeds_iff {x : Except ε α} : Succeeds x ↔ ∃ a, x = .ok a := by
  cases x with
  | error e => exact ⟨fun succeeds => (succeeds e rfl).elim, fun ⟨_, ok⟩ => by cases ok⟩
  | ok a => exact ⟨fun _ => ⟨a, rfl⟩, fun _ => .ok a⟩

theorem Succeeds.pure (a : α) : Succeeds (pure a : Except ε α) := .ok a

theorem Succeeds.bind {x : Except ε α} {next : α → Except ε β} (first : Succeeds x)
    (onward : ∀ a, Succeeds (next a)) : Succeeds (x >>= next) :=
  FailsOnly.bind first fun a _ => onward a

theorem Succeeds.map {x : Except ε α} (first : Succeeds x) (f : α → β) :
    Succeeds (do return f (← x)) := first.bind fun a => .pure (f a)

theorem Succeeds.mapM {f : α → Except ε β} {xs : List α} (each : ∀ x ∈ xs, Succeeds (f x)) :
    Succeeds (xs.mapM f) := FailsOnly.mapM each

theorem Succeeds.gather {make : α → Except ε (List β)} {xs : List α} (each : ∀ x ∈ xs, Succeeds (make x)) :
    Succeeds (gather make xs) := (Succeeds.mapM each).map _

end Succeeds

/-- The fields of a shape are those of the field or of a case. -/
theorem ResponseField.mem_fields_of_mem_propertySets {schema : Schema} {field : ResponseField}
    {set : PropertySet}
    (listed : set ∈ field.propertySets schema) :
    set.fields = field.fields ∨ ∃ typeCase ∈ field.cases, set.fields = typeCase.fields := by
  have diverges : field.cases ≠ [] := by
    intro none
    simp [propertySets, none] at listed
  rcases propertySets_eq schema diverges with sets | ⟨sets, _⟩
  · rw [sets, List.mem_append] at listed
    rcases listed with inCases | last
    · obtain ⟨typeCase, member, rfl⟩ := List.mem_map.mp inCases
      exact .inr ⟨typeCase, member, rfl⟩
    · rw [List.mem_singleton.mp last]
      exact .inl rfl
  · rw [sets] at listed
    obtain ⟨typeCase, member, rfl⟩ := List.mem_map.mp listed
    exact .inr ⟨typeCase, member, rfl⟩

namespace TypeStyle

theorem succeeds_layers (style : TypeStyle) {type : TypeRef} (single : type.hasDoubleNonNull = false)
    (nullable : Bool) : Succeeds (style.layers nullable type) := by
  obtain ⟨around, written, _⟩ := style.layers_eq_ok single nullable
  exact succeeds_iff.mpr ⟨around, written⟩

theorem succeeds_around (style : TypeStyle) {type : TypeRef} (single : type.hasDoubleNonNull = false) :
    Succeeds (style.around type) := style.succeeds_layers single true

end TypeStyle

namespace Emission

variable {e : Emission} {style : TypeStyle} {rename : String → String} {type : TypeRef}

theorem succeeds_leafType (single : type.hasDoubleNonNull = false) :
    Succeeds (e.leafType style rename type) := (style.succeeds_around single).map _

theorem succeeds_inputMember (single : type.hasDoubleNonNull = false) (comments : List String)
    (name : String) : Succeeds (e.inputMember style rename comments name type) :=
  (succeeds_leafType single).map _

theorem succeeds_variables {operation : CompiledOperation}
    (single : ∀ v ∈ operation.parameters, v.type.hasDoubleNonNull = false) :
    Succeeds (e.variableRecords style rename operation) := by
  unfold variableRecords
  split
  · exact .ok _
  · apply Succeeds.map
    exact .mapM fun v listed => succeeds_inputMember (single v listed) _ _

end Emission

def ResponseField.IsSingle (field : ResponseField) : Prop := field.type.hasDoubleNonNull = false

def ResponseField.Writable (field : ResponseField) : Prop := field.Everywhere IsSingle

structure Emission.Writable (e : Emission) : Prop where
  fields : ∀ operation ∈ e.compiled.operations, ∀ field ∈ operation.fields, field.Writable
  parameters : ∀ operation ∈ e.compiled.operations, ∀ v ∈ operation.parameters,
    v.type.hasDoubleNonNull = false
  fragments : ∀ fragment ∈ e.compiled.fragments, fragment.toField.Writable
  inputs : ∀ type ∈ e.inputsUsed, ∀ field ∈ type.inputFields, field.type.hasDoubleNonNull = false

variable {e : Emission} {field : ResponseField} {fields : List ResponseField}

namespace Emission

theorem succeeds_nestedWith {declare : List String → ResponseField → Except Error (List Declaration)}
    (each : ∀ field ∈ fields, ∀ path, Succeeds (declare path field)) (path : List String) :
    Succeeds (e.nestedWith declare path fields) := by
  apply Succeeds.gather
  intro field member
  split
  · exact each field member _
  · exact .ok _

theorem succeeds_shapesWith {group : Grouping}
    (ofFields : ∀ path parent typenames, Succeeds (group path parent typenames field.fields))
    (ofCases : ∀ typeCase ∈ field.cases, ∀ path parent typenames,
      Succeeds (group path parent typenames typeCase.fields)) (path : List String) :
    Succeeds (e.shapesWith group path field) := by
  refine Succeeds.bind ?_ fun _ => Succeeds.map ?_ _
  · exact .gather fun typeCase member => ofCases typeCase member _ _ _
  · unfold otherWith
    split
    · exact ofFields _ _ _
    · exact .ok _

theorem succeeds_declareAll (writable : e.Writable) {plan : Plan}
    (groups : ∀ operation ∈ e.compiled.operations, ∀ path parent,
      Succeeds (plan.group path parent none operation.fields))
    (fragments : ∀ fragment ∈ e.compiled.fragments, Succeeds (plan.fragment fragment)) :
    Succeeds (e.declareAll plan) := by
  refine Succeeds.bind ?_ fun inputs => Succeeds.bind ?_ fun operations => Succeeds.map (.gather fragments) _
  · apply Succeeds.mapM
    intro type used
    apply Succeeds.map
    apply Succeeds.mapM
    exact fun field member => succeeds_inputMember (writable.inputs type used field member) _ _
  · apply Succeeds.gather
    intro operation member
    refine (succeeds_variables (writable.parameters operation member)).bind fun _ => ?_
    exact (groups operation member _ _).map _

end Emission

namespace Flow

theorem source_eq_ok {text : String} (ok : source e = .ok text) :
    ∃ declared, declarations e = .ok declared ∧ text = Declaration.source dialect declared := by
  obtain ⟨declared, done, ok⟩ := bind_eq_ok.mp ok
  exact ⟨declared, done, (Except.ok.inj ok).symm⟩

theorem succeeds_member (single : field.IsSingle) (path : List String) (parent : String)
    (typenames : Option (List String)) : Succeeds (member e path parent typenames field) := by
  unfold member
  dsimp only
  split
  · exact .ok _
  · split
    · exact (style.succeeds_around single).bind fun _ => .ok _
    · exact (Emission.succeeds_leafType single).bind fun _ => .ok _

theorem succeeds_group (writable : ∀ field ∈ fields, field.Writable)
    (each : ∀ field ∈ fields, ∀ path, Succeeds (selection e path field)) (path : List String) (parent : String)
    (typenames : Option (List String)) : Succeeds (group e path parent typenames fields) := by
  refine Succeeds.bind ?_ fun own => Succeeds.map ?_ _
  · apply Succeeds.map
    apply Succeeds.mapM
    exact fun field member => succeeds_member (everywhere_iff.mp (writable field member)).1 path parent typenames
  · rw [nested_eq]
    exact Emission.succeeds_nestedWith each path

theorem succeeds_selection (writable : field.Writable) (path : List String) :
    Succeeds (selection e path field) := by
  induction field using induction_below generalizing path with
  | step field below belowCases =>
    obtain ⟨_, inFields, inCases⟩ := everywhere_iff.mp writable
    have ofFields := succeeds_group inFields fun child member => below child member (inFields child member)
    by_cases uniform : field.propertySets e.schema = []
    · rw [selection_of_uniform uniform]
      exact ofFields _ _ _
    · rw [selection_of_shapes uniform]
      apply Succeeds.map
      refine Emission.succeeds_shapesWith ofFields (fun typeCase member => ?_) path
      apply succeeds_group (inCases typeCase member)
      exact fun child inCase => belowCases typeCase member child inCase (inCases typeCase member child inCase)

theorem succeeds_source (writable : e.Writable) : Succeeds (source e) := by
  apply Succeeds.map
  rw [declarations_eq]
  refine Emission.succeeds_declareAll writable ?_ ?_
  · intro operation member path parent
    have ofFields := writable.fields operation member
    exact succeeds_group ofFields (fun field listed => succeeds_selection (ofFields field listed)) path parent none
  · exact fun fragment member => succeeds_selection (writable.fragments fragment member) _

end Flow

namespace TypeScript

theorem succeeds_member (writable : field.Writable) (path : List String) (parent : String)
    (typenames : Option (List String)) : Succeeds (member e path parent typenames field) := by
  induction field using induction_below generalizing path parent typenames with
  | step field below _ =>
    obtain ⟨single, inFields, _⟩ := everywhere_iff.mp writable
    rw [member_eq]
    apply Succeeds.map
    unfold memberType
    dsimp only
    split
    · exact .ok _
    · split
      · exact Emission.succeeds_leafType single
      · refine (style.succeeds_around single).bind fun around => ?_
        split
        · rw [members_eq]
          apply Succeeds.map
          exact .mapM fun child member => below child member (inFields child member) _ _ _
        · exact .ok _

theorem succeeds_group (writable : ∀ field ∈ fields, field.Writable)
    (each : ∀ field ∈ fields, ∀ path, Succeeds (shapes e path field)) (path : List String) (parent : String)
    (typenames : Option (List String)) : Succeeds (group e path parent typenames fields) := by
  refine Succeeds.bind ?_ fun below => Succeeds.map ?_ _
  · rw [nested_eq]
    exact Emission.succeeds_nestedWith each path
  · apply Succeeds.map
    rw [members_eq]
    exact .mapM fun field member => succeeds_member (writable field member) path parent typenames

theorem succeeds_shapes (writable : field.Writable) (path : List String) :
    Succeeds (shapes e path field) := by
  induction field using induction_below generalizing path with
  | step field below belowCases =>
    obtain ⟨_, inFields, inCases⟩ := everywhere_iff.mp writable
    have ofFields := fun child member => below child member (inFields child member)
    by_cases uniform : field.propertySets e.schema = []
    · rw [shapes_of_uniform uniform, nested_eq]
      exact Emission.succeeds_nestedWith ofFields path
    · rw [shapes_of_shapes uniform]
      refine Emission.succeeds_shapesWith (succeeds_group inFields ofFields) (fun typeCase member => ?_) path
      apply succeeds_group (inCases typeCase member)
      exact fun child inCase => belowCases typeCase member child inCase (inCases typeCase member child inCase)

theorem succeeds_fragmentDeclarations {fragment : CompiledFragment}
    (writable : fragment.toField.Writable) : Succeeds (fragmentDeclarations e fragment) := by
  have inFields := (everywhere_iff.mp writable).2.1
  by_cases uniform : fragment.toField.propertySets e.schema = []
  · rw [fragmentDeclarations_of_uniform uniform]
    exact succeeds_group inFields (fun field member => succeeds_shapes (inFields field member)) _ _ _
  · rw [fragmentDeclarations_of_shapes uniform, ← shapes_of_shapes uniform]
    exact (succeeds_shapes writable _).map _

theorem succeeds_methodDeclarations {kind : OperationKind}
    (methods : ∀ operation ∈ e.compiled.operations, Succeeds (method? e operation)) :
    Succeeds (methodDeclarations e kind) := by
  unfold methodDeclarations
  dsimp only
  split
  · exact .ok _
  · apply Succeeds.map
    exact .mapM fun operation member => methods operation (List.mem_filter.mp member).1

theorem succeeds_source (writable : e.Writable)
    (methods : e.synthesized = true →
      ∀ operation ∈ e.compiled.operations, Succeeds (method? e operation)) :
    Succeeds (source e) := by
  apply Succeeds.map
  rw [declarations_eq]
  refine Succeeds.bind ?_ fun declared => Succeeds.map ?_ _
  · refine Emission.succeeds_declareAll writable ?_ ?_
    · intro operation member path parent
      have ofFields := writable.fields operation member
      exact succeeds_group ofFields (fun field listed => succeeds_shapes (ofFields field listed)) path parent none
    · exact fun fragment member => succeeds_fragmentDeclarations (writable.fragments fragment member)
  · unfold allMethods
    split
    · rename_i synthesized
      exact .gather fun kind _ => succeeds_methodDeclarations (methods synthesized)
    · exact .ok _

end TypeScript

namespace Swift

theorem nested_eq (e : Emission) (fields : List ResponseField) :
    nested e fields = gather
      (fun field => if e.isComposite field then do return [← nestedType e field] else pure []) fields := by
  refine eq_gather (nested e) rfl (fun field rest => ?_) fields
  rw [nested]
  cases e.isComposite field <;> simp

theorem nestedType_of_uniform (uniform : field.propertySets e.schema = []) :
    nestedType e field = do
      return .struct (structName field.responseName) (← field.fields.mapM (property e))
        (← nested e field.fields) := by
  cases field
  rw [nestedType, uniform]

theorem succeeds_write {type : TypeRef} (single : type.hasDoubleNonNull = false) (leaf : String) :
    Succeeds (style.write type leaf) := (style.succeeds_around single).map _

theorem succeeds_properties (writable : ∀ field ∈ fields, field.Writable) :
    Succeeds (fields.mapM (property e)) := by
  apply Succeeds.mapM
  intro field member
  exact (succeeds_write (everywhere_iff.mp (writable field member)).1 _).map _

theorem succeeds_nested (each : ∀ field ∈ fields, Succeeds (nestedType e field)) :
    Succeeds (nested e fields) := by
  rw [nested_eq]
  apply Succeeds.gather
  intro field member
  split
  · exact (each field member).map _
  · exact .ok _

theorem succeeds_nestedType (writable : field.Writable) : Succeeds (nestedType e field) := by
  induction field using induction_below with
  | step field below belowCases =>
    obtain ⟨_, inFields, inCases⟩ := everywhere_iff.mp writable
    have ofFields : Succeeds (nested e field.fields) :=
      succeeds_nested fun child member => below child member (inFields child member)
    by_cases uniform : field.propertySets e.schema = []
    · rw [nestedType_of_uniform uniform]
      exact (succeeds_properties inFields).bind fun _ => ofFields.map _
    · have diverges : field.cases ≠ [] := by
        intro none
        exact uniform (by simp [propertySets, none])
      rw [nestedType_eq diverges]
      apply Succeeds.map
      apply Succeeds.mapM
      intro set listed
      rcases mem_fields_of_mem_propertySets listed with same | ⟨typeCase, member, same⟩
      · unfold shapeType
        rw [same]
        exact (succeeds_properties inFields).bind fun _ => ofFields.map _
      · unfold shapeType
        rw [same]
        refine (succeeds_properties (inCases typeCase member)).bind fun _ => Succeeds.map ?_ _
        apply succeeds_nested
        intro child inCase
        exact belowCases typeCase member child inCase (inCases typeCase member child inCase)

theorem succeeds_source (writable : e.Writable) : Succeeds (source e) := by
  apply Succeeds.map
  refine Succeeds.bind ?_ fun operations => Succeeds.map ?_ _
  · apply Succeeds.mapM
    intro operation member
    have ofFields := writable.fields operation member
    refine Succeeds.bind ?_ fun parameters => (succeeds_properties ofFields).bind fun _ => Succeeds.map ?_ _
    · apply Succeeds.mapM
      exact fun v listed => (succeeds_write (writable.parameters operation member v listed) _).map _
    · exact succeeds_nested fun field inFields => succeeds_nestedType (ofFields field inFields)
  · apply Succeeds.mapM
    intro type used
    apply Succeeds.map
    apply Succeeds.mapM
    exact fun field member => (succeeds_write (writable.inputs type used field member) _).map _

end Swift

/-- A source is written for every target if all types can be written. -/
theorem Emission.succeeds_source (writable : e.Writable)
    (methods : e.synthesized = true →
      ∀ operation ∈ e.compiled.operations, Succeeds (TypeScript.method? e operation))
    (target : Target) : Succeeds (e.source target) := by
  cases target with
  | json => exact .ok _
  | swift => exact Swift.succeeds_source writable
  | typeScript => exact TypeScript.succeeds_source writable methods
  | flow => exact Flow.succeeds_source writable

namespace Document

section OneOperation

variable {schema : Schema} {source : Operation} {root : TypeDefinition} {s : Collection} {options : Options}
  (isRoot : schema.root source.kind = .ok root)
  (run : ((ofOperation source).compiler schema options.mergeSpreads).Run [] root false source.selectionSet.items {} s)

include isRoot run

/-- All that the document of one operation is compiled to. -/
theorem operation_of_ofOperation {compiled : Compiled}
    (done : (ofOperation source).compile schema options = .ok compiled) :
    compiled.schema = schema ∧ compiled.fragments = [] ∧ ∀ operation ∈ compiled.operations,
      source.name? = some operation.name ∧ operation.kind = source.kind ∧
        (operation.parameters = source.parameters.map fun v => ⟨v.name, v.type⟩) ∧
        operation.fields = s.target.fields := by
  obtain ⟨leaves, same, _, ofOperations, ofFragments⟩ := exists_leaves done
  have none : compiled.fragments = [] := by
    apply List.eq_nil_iff_forall_not_mem.mpr
    intro fragment member
    obtain ⟨source, inDocument, _⟩ := ofFragments fragment member
    cases inDocument
  refine ⟨same, none, ?_⟩
  intro operation member
  obtain ⟨_, inDocument, other, found, compiles, _⟩ := ofOperations operation member
  cases List.mem_singleton.mp inDocument
  cases compiles.starts.symm.trans isRoot
  have collected : found = s := compiles.run.unique run
  refine ⟨compiles.name, compiles.kind, compiles.parameters, ?_⟩
  rw [compiles.fields, collected]

end OneOperation

theorem exists_artifacts_of_ofOperation {schema : Schema} {source : Operation} {name : String} {root : TypeDefinition}
    {s : Collection} (named : source.name? = some name) (isRoot : schema.root source.kind = .ok root)
    (run : ((ofOperation source).compiler schema true).Run [] root false source.selectionSet.items {} s)
    (noBranches : s.branches = []) (noSpreads : Selection.spreadNamesAll source.selectionSet.items = [])
    {target : Target} (prepares : (ofOperation source).prepare schema target.addsTypename = .ok (ofOperation source))
    (valid : (ofOperation source).validate schema target.addsTypename = .ok ())
    (writable : ∀ field ∈ s.target.fields, field.Writable)
    (parameters : ∀ v ∈ source.parameters, v.type.hasDoubleNonNull = false)
    (inputs : ∀ type ∈ schema.types, ∀ field ∈ type.inputFields, field.type.hasDoubleNonNull = false) :
    ∃ artifacts, schema.generate (some (ofOperation source)) target {} = .ok artifacts := by
  have run : ((ofOperation source).compiler schema (({} : Options).forTarget target).mergeSpreads).Run [] root false
    source.selectionSet.items {} s := run
  obtain ⟨compiled, operation, done, member, fields⟩ := compile_ofOperation named isRoot run noBranches noSpreads
  obtain ⟨same, noFragments, each⟩ := operation_of_ofOperation isRoot run done
  let e : Emission := ⟨compiled, ({} : Options).forTarget target, false⟩
  have emits : e.Writable := by
    constructor
    · intro operation member field inFields
      rw [(each operation member).2.2.2] at inFields
      exact writable field inFields
    · intro operation member v listed
      rw [(each operation member).2.2.1] at listed
      obtain ⟨parameter, inSource, rfl⟩ := List.mem_map.mp listed
      exact parameters parameter inSource
    · intro fragment member
      rw [noFragments] at member
      cases member
    · intro type used
      obtain ⟨name, _, found⟩ := List.mem_filterMap.mp (List.mem_filter.mp used).1
      rw [Emission.schema, same] at found
      exact inputs type (Schema.mem_of_type? found)
  obtain ⟨text, written⟩ := succeeds_iff.mp (Emission.succeeds_source emits nofun target)
  have validated : schema.validDocument (some (ofOperation source)) target = .ok (ofOperation source) := by
    unfold Schema.validDocument
    dsimp only
    rw [valid]
    rfl
  have prepared : (ofOperation source).prepare schema (({} : Options).forTarget target).addTypename =
      .ok (ofOperation source) := prepares
  have checked : ({} : Options).validate = .ok () := rfl
  rw [Schema.generate_eq, validated, checked, ok_bind, ok_bind, prepared, ok_bind, done, ok_bind]
  change ∃ artifacts, (e.source target >>= _) = _
  rw [written]
  exact ⟨_, rfl⟩

section OneQuery

variable {schema : Schema} {selections : List Selection} {root : TypeDefinition} {s : Collection}
  (isRoot : schema.root .query = .ok root)
  (run : ((ofQuery selections).compiler schema true).Run [] root false selections {} s)

include isRoot run

theorem operation_of_ofQuery {compiled : Compiled}
    (done : (ofQuery selections).compile schema {} = .ok compiled) :
    compiled.schema = schema ∧ compiled.fragments = [] ∧ ∀ operation ∈ compiled.operations,
      operation.name = "Q" ∧ operation.kind = .query ∧ operation.parameters = [] ∧
        operation.fields = s.target.fields := by
  let source : Operation := ⟨.start, some ⟨.query, some "Q", [], []⟩, ⟨default, selections⟩⟩
  have starts : schema.root source.kind = .ok root := isRoot
  obtain ⟨same, none, each⟩ := operation_of_ofOperation starts run done
  refine ⟨same, none, fun operation member => ?_⟩
  obtain ⟨name, rest⟩ := each operation member
  exact ⟨(Option.some.inj name).symm, rest⟩

theorem exists_artifacts_of_ofQuery (noBranches : s.branches = [])
    (noSpreads : Selection.spreadNamesAll selections = []) {target : Target}
    (adds : target.addsTypename = false)
    (valid : (ofQuery selections).validate schema target.addsTypename = .ok ())
    (writable : ∀ field ∈ s.target.fields, field.Writable)
    (inputs : ∀ type ∈ schema.types, ∀ field ∈ type.inputFields, field.type.hasDoubleNonNull = false) :
    ∃ artifacts, schema.generate (some (ofQuery selections)) target {} = .ok artifacts := by
  let source : Operation := ⟨.start, some ⟨.query, some "Q", [], []⟩, ⟨default, selections⟩⟩
  have named : source.name? = some "Q" := rfl
  have prepares : (ofOperation source).prepare schema target.addsTypename = .ok (ofOperation source) := by
    rw [adds]
    rfl
  exact exists_artifacts_of_ofOperation named isRoot run noBranches noSpreads prepares valid writable nofun inputs

end OneQuery

end Document

end QueryTypes
