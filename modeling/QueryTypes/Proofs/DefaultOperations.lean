import Mathlib.Data.List.Nodup
import QueryTypes.Proofs.OperationText
import QueryTypes.Proofs.PlainSelections

namespace QueryTypes

namespace Schema

theorem name_of_mem_rootOperations_name {used : List String} {fields : List (OperationKind × FieldDefinition)}
    {entry : OperationKind × String × FieldDefinition} (member : entry ∈ rootOperations.name used fields) :
    entry.2.1 = entry.2.2.name ∨ entry.2.1 = entry.2.2.name ++ entry.1.suffix := by
  induction fields generalizing used with
  | nil => cases member
  | cons field rest ih =>
    obtain ⟨kind, field⟩ := field
    rw [rootOperations.name] at member
    split at member
    · rcases List.mem_cons.mp member with rfl | member
      · exact .inr rfl
      · exact ih member
    · rcases List.mem_cons.mp member with rfl | member
      · exact .inl rfl
      · exact ih member

theorem map_rootOperations_name (used : List String) (fields : List (OperationKind × FieldDefinition)) :
    (rootOperations.name used fields).map (fun entry => (entry.1, entry.2.2)) = fields := by
  induction fields generalizing used with
  | nil => rfl
  | cons field rest ih =>
    rw [rootOperations.name]
    split <;> simp [ih]

def rootFields (schema : Schema) : List (OperationKind × FieldDefinition) :=
  [OperationKind.query, .mutation, .subscription].flatMap fun kind =>
    match schema.root kind with
    | .ok root => root.fields.map fun field => (kind, field)
    | .error _ => []

theorem mem_rootFields {schema : Schema} {kind : OperationKind} {field : FieldDefinition} :
    (kind, field) ∈ schema.rootFields ↔ ∃ root, schema.root kind = .ok root ∧ field ∈ root.fields := by
  unfold rootFields
  rw [List.mem_flatMap]
  constructor
  · rintro ⟨other, _, member⟩
    split at member
    · rename_i root starts
      obtain ⟨_, listed, same⟩ := List.mem_map.mp member
      cases same
      exact ⟨root, starts, listed⟩
    · cases member
  · rintro ⟨root, starts, listed⟩
    refine ⟨kind, by cases kind <;> simp, ?_⟩
    rw [starts]
    exact List.mem_map_of_mem listed

/-- There is one default operation for each root field. -/
theorem map_rootOperations (schema : Schema) :
    schema.rootOperations.map (fun entry => (entry.1, entry.2.2)) = schema.rootFields :=
  map_rootOperations_name [] _

theorem exists_root_of_mem {schema : Schema} {entry : OperationKind × String × FieldDefinition}
    (member : entry ∈ schema.rootOperations) :
    ∃ root, schema.root entry.1 = .ok root ∧ entry.2.2 ∈ root.fields := by
  rw [← mem_rootFields, ← map_rootOperations]
  exact List.mem_map_of_mem (f := fun entry => (entry.1, entry.2.2)) member

theorem isName_suffix {name : String} (isName : isName name = true) (kind : OperationKind) :
    QueryTypes.isName (name ++ kind.suffix) = true := by
  have suffix : kind.suffix.toList.all Token.isNameChar = true := by cases kind <;> decide
  unfold QueryTypes.isName at isName ⊢
  rw [String.toList_append]
  split at isName
  · cases isName
  · rename_i spelled
    rw [spelled]
    simpa [suffix] using isName

def readDefault (schema : Schema) (entry : OperationKind × String × FieldDefinition) : Except Error Document := do
  Document.read none (← schema.operationText entry.1 entry.2.1 entry.2.2)

theorem defaultDocument_eq (schema : Schema) :
    schema.defaultDocument = (do
      let documents ← schema.rootOperations.mapM schema.readDefault
      (Document.concat documents).withDiscriminators schema) := rfl

/-- Each default operation is read as it was meant, if it is read. -/
theorem readDefault_of_mem {schema : Schema} (readable : schema.Readable)
    {entry : OperationKind × String × FieldDefinition} (member : entry ∈ schema.rootOperations) :
    ∃ text, schema.operationText entry.1 entry.2.1 entry.2.2 = .ok text ∧
      (∀ document, schema.readDefault entry = .ok document → ∃ operation,
        document = ⟨[.operation operation]⟩ ∧
          Performs entry.1 entry.2.1 entry.2.2 (schema.expand [] entry.2.2.type.baseName) operation) ∧
      (Token.deepest 0 text.toList ≤ Token.nestingLimit → ∃ document, schema.readDefault entry = .ok document) := by
  obtain ⟨root, starts, listed⟩ := exists_root_of_mem member
  have ofField := readable.field (mem_of_type? (name_of_root starts).2) listed
  have isName : isName entry.2.1 = true := by
    rcases name_of_mem_rootOperations_name member with same | same
    · rw [same]
      exact ofField.isName
    · rw [same]
      exact isName_suffix ofField.isName entry.1
  obtain ⟨text, written, sound, complete⟩ := read_operationText readable isName ofField none
  refine ⟨text, written, ?_⟩
  unfold readDefault
  rw [written, ok_bind]
  exact ⟨sound, complete⟩

/-- The default document has the default operations with discriminators. -/
theorem exists_operations_of_mapM {schema : Schema} (readable : schema.Readable)
    {entries : List (OperationKind × String × FieldDefinition)} (listed : entries ⊆ schema.rootOperations)
    {documents : List Document} (done : entries.mapM schema.readDefault = .ok documents) :
    ∃ operations, Document.concat documents = .ofOperations operations ∧
      operations.map Operation.name? = (entries.map fun entry => some entry.2.1) ∧
      (∀ operation ∈ operations, ∃ entry ∈ entries, Performs entry.1 entry.2.1 entry.2.2
        (schema.expand [] entry.2.2.type.baseName) operation) ∧
      ∀ entry ∈ entries, ∃ operation ∈ operations, Performs entry.1 entry.2.1 entry.2.2
        (schema.expand [] entry.2.2.type.baseName) operation := by
  induction entries generalizing documents with
  | nil =>
    cases done
    exact ⟨[], rfl, rfl, nofun, nofun⟩
  | cons entry entries ih =>
    rw [List.cons_subset] at listed
    rw [List.mapM_cons] at done
    obtain ⟨document, first, done⟩ := bind_eq_ok.mp done
    obtain ⟨rest, others, done⟩ := bind_eq_ok.mp done
    cases done
    obtain ⟨_, _, sound, _⟩ := readDefault_of_mem readable listed.1
    obtain ⟨operation, rfl, performs⟩ := sound document first
    obtain ⟨operations, whole, names, each, all⟩ := ih listed.2 others
    have joined : Document.concat (⟨[.operation operation]⟩ :: rest) = .ofOperations (operation :: operations) := by
      have same := congrArg Document.definitions whole
      simpa [Document.concat, Document.ofOperations] using same
    refine ⟨operation :: operations, joined, ?_, List.forall_mem_cons.mpr ⟨?_, ?_⟩,
      List.forall_mem_cons.mpr ⟨?_, ?_⟩⟩
    · rw [List.map_cons, List.map_cons, names, performs.name]
    · exact ⟨entry, List.mem_cons_self, performs⟩
    · intro other member
      obtain ⟨source, inEntries, own⟩ := each other member
      exact ⟨source, List.mem_cons_of_mem _ inEntries, own⟩
    · exact ⟨operation, List.mem_cons_self, performs⟩
    · intro other member
      obtain ⟨made, inOperations, own⟩ := all other member
      exact ⟨made, List.mem_cons_of_mem _ inOperations, own⟩

/-- A schema whose types are all there and whose names do not get into each other's way. -/
structure Sound (schema : Schema) : Prop where
  builtIn : ∀ name ∈ builtInScalars, schema.IsBuiltIn name
  outputs : schema.OutputFields
  inputs : ∀ type ∈ schema.types, ∀ field ∈ type.fields, ∀ argument ∈ field.arguments,
    (schema.type? argument.type.baseName).any TypeDefinition.isInput = true
  distinct : ∀ type ∈ schema.types, (type.fields.map FieldDefinition.name).Nodup
  unreserved : ∀ type ∈ schema.types, ∀ field ∈ type.fields, ¬['_', '_'] <+: field.name.toList
  roots : (schema.rootFields.map (·.2.name)).Nodup

/-- No text of a default operation opens more brackets at once than the parser allows. -/
def Shallow (schema : Schema) : Prop :=
  ∀ operation ∈ schema.rootOperations,
    ∀ text ∈ (schema.operationText operation.1 operation.2.1 operation.2.2).toOption,
      Token.deepest 0 text.toList ≤ Token.nestingLimit

variable {schema : Schema}

theorem rootOperations_name {fields : List (OperationKind × FieldDefinition)} {used : List String}
    (distinct : (fields.map (·.2.name)).Nodup) (fresh : ∀ field ∈ fields, field.2.name ∉ used) :
    rootOperations.name used fields = fields.map fun field => (field.1, field.2.name, field.2) := by
  induction fields generalizing used with
  | nil => rfl
  | cons field rest ih =>
    rw [List.map_cons, List.nodup_cons] at distinct
    rw [List.forall_mem_cons] at fresh
    have later : ∀ other ∈ rest, other.2.name ∉ field.2.name :: used := by
      intro other member
      rw [List.mem_cons, not_or]
      refine ⟨fun same => distinct.1 ?_, fresh.2 other member⟩
      rw [← same]
      exact List.mem_map_of_mem member
    obtain ⟨kind, definition⟩ := field
    rw [rootOperations.name, if_neg fresh.1, ih distinct.2 later, List.map_cons]

/-- Where all root fields have names of their own, so do the default operations. -/
theorem rootOperations_eq (roots : (schema.rootFields.map (·.2.name)).Nodup) :
    schema.rootOperations = schema.rootFields.map fun field => (field.1, field.2.name, field.2) :=
  rootOperations_name roots fun _ _ => List.not_mem_nil

theorem mem_expandable {type : TypeDefinition} (hasFields : type.isComposite = true) {entry : String × String}
    (member : entry ∈ expandable type) :
    ∃ field ∈ type.fields, entry = (field.name, field.type.baseName) := by
  unfold expandable at member
  split at member
  · rename_i body
    simp [TypeDefinition.isComposite, body] at hasFields
  · obtain ⟨field, listed, rfl⟩ := List.mem_map.mp member
    exact ⟨field, List.mem_of_mem_filter listed, rfl⟩

namespace Sound

theorem string (sound : schema.Sound) : schema.IsBuiltIn "String" := sound.builtIn "String" (by decide)

/-- A field of a type is the one that is found by its name. -/
theorem field?_of_mem (sound : schema.Sound) {type : TypeDefinition} (listed : type ∈ schema.types)
    {field : FieldDefinition} (member : field ∈ type.fields) : schema.field? type field.name = some field := by
  have plain := sound.unreserved type listed field member
  have other {name : String} (reserved : ['_', '_'] <+: name.toList) : field.name ≠ name := by
    rintro rfl
    exact plain reserved
  have found : type.field? field.name = some field :=
    find?_key_of_mem FieldDefinition.name (sound.distinct type listed) member
  rw [field?_eq type (other (by decide)) (other (by decide)), if_neg, found]
  exact fun typename => other (by decide) typename.1

theorem exists_type (sound : schema.Sound) {type : TypeDefinition} (listed : type ∈ schema.types)
    {field : FieldDefinition} (member : field ∈ type.fields) :
    ∃ other, schema.type? field.type.baseName = some other ∧ other.isOutput = true :=
  (Option.any_eq_true _ _).mp (sound.outputs type listed field member)

/-- What a default operation selects below a type is plain. -/
theorem completes_expand (sound : schema.Sound) (path : List String) (name : String) :
    ∀ type, schema.type? name = some type → type.isOutput = true →
      ∀ inner, FieldTree.MatchesAll (schema.expand path name) inner → schema.Completes type inner := by
  refine schema.expand_induction (fun name trees => ∀ type, schema.type? name = some type →
    type.isOutput = true → ∀ inner, FieldTree.MatchesAll trees inner → schema.Completes type inner)
    ?_ ?_ ?_ path name
  · intro name leaf type found _ inner matched
    exact .inl ⟨leaf type found, (FieldTree.eq_nil_iff_of_matchesAll matched).mpr rfl⟩
  · intro name type found notLeaf _ also output inner matched
    cases found.symm.trans also
    have hasFields : type.isComposite = true := by simpa [TypeDefinition.isOutput, notLeaf] using output
    refine .inr ⟨hasFields, ?_, ?_⟩
    · simp [FieldTree.eq_nil_iff_of_matchesAll matched]
    · intro selection member
      obtain ⟨tree, inTrees, own⟩ := FieldTree.exists_of_matchesAll matched member
      cases List.mem_singleton.mp inTrees
      obtain ⟨head, span, below, rfl, unlabelled, named, undirected, none⟩ := FieldTree.Matches.exists_field own
      cases (FieldTree.eq_nil_iff_of_matchesAll none).mpr rfl
      exact plain_typename sound.string hasFields named unlabelled undirected
  · intro name type below found notLeaf filled ih _ also output inner matched
    cases found.symm.trans also
    have hasFields : type.isComposite = true := by simpa [TypeDefinition.isOutput, notLeaf] using output
    refine .inr ⟨hasFields, ?_, ?_⟩
    · simpa [FieldTree.eq_nil_iff_of_matchesAll matched] using filled
    · intro selection member
      obtain ⟨tree, inTrees, own⟩ := FieldTree.exists_of_matchesAll matched member
      obtain ⟨entry, expanded, rfl⟩ := List.mem_map.mp inTrees
      obtain ⟨field, ofType, rfl⟩ := mem_expandable hasFields expanded
      obtain ⟨head, span, inside, rfl, unlabelled, named, undirected, onward⟩ := FieldTree.Matches.exists_field own
      have listed := mem_of_type? found
      obtain ⟨other, known, isOutput⟩ := sound.exists_type listed ofType
      have field : schema.HasField type head field other :=
        ⟨unlabelled, undirected, by rw [named]; exact sound.field?_of_mem listed ofType, known⟩
      exact field.plain (ih _ other known isOutput inside onward)

theorem plainOperation (sound : schema.Sound) (readable : schema.Readable) {kind : OperationKind}
    {root : TypeDefinition} (starts : schema.root kind = .ok root) (isObject : root.isObject) {name : String}
    {field : FieldDefinition} (member : field ∈ root.fields) {operation : Operation}
    (performs : Performs kind name field (schema.expand [] field.type.baseName) operation) :
    schema.PlainOperation operation := by
  have listed := mem_of_type? (name_of_root starts).2
  refine ⟨⟨name, performs.name⟩, ⟨root, ?_, TypeDefinition.isComposite_of_isObject isObject, ?_⟩, ?_⟩
  · rw [performs.kind]
    exact starts
  · intro selection selected
    obtain ⟨tree, inTrees, own⟩ := FieldTree.exists_of_matchesAll performs.items selected
    cases List.mem_singleton.mp inTrees
    obtain ⟨head, span, inside, rfl, unlabelled, named, undirected, onward⟩ := FieldTree.Matches.exists_field own
    obtain ⟨other, known, isOutput⟩ := sound.exists_type listed member
    have found : schema.HasField root head field other :=
      ⟨unlabelled, undirected, by rw [named]; exact sound.field?_of_mem listed member, known⟩
    exact found.plain (sound.completes_expand [] _ other known isOutput inside onward)
  · intro v inParameters
    have written : (v.name, v.type) ∈ field.arguments.map fun a => (a.name, a.type) := by
      rw [← performs.parameters]
      exact List.mem_map_of_mem inParameters
    obtain ⟨argument, inArguments, same⟩ := List.mem_map.mp written
    have typed : argument.type = v.type := congrArg Prod.snd same
    rw [← typed]
    exact ⟨sound.inputs root listed field member argument inArguments,
      ((readable.field listed member).arguments argument inArguments).type.single⟩

end Sound

/-- The default operations of a sound schema are read and are plain. -/
theorem exists_defaultDocument {items : List SchemaItem} (built : ofItems items = .ok schema)
    (readable : schema.Readable) (sound : schema.Sound) (shallow : schema.Shallow) :
    ∃ operations, schema.defaultDocument = .ok (.ofOperations operations) ∧
      (∀ operation ∈ operations, schema.PlainOperation operation) ∧
      (operations.map Operation.name?).Nodup := by
  have all : Succeeds (schema.rootOperations.mapM schema.readDefault) := by
    apply Succeeds.mapM
    intro entry member
    obtain ⟨text, written, _, complete⟩ := readDefault_of_mem readable member
    apply succeeds_iff.mpr
    apply complete
    apply shallow entry member
    rw [written]
    rfl
  obtain ⟨documents, done⟩ := succeeds_iff.mp all
  obtain ⟨operations, joined, names, each, _⟩ := exists_operations_of_mapM readable (List.Subset.refl _) done
  have plain : ∀ operation ∈ operations, schema.PlainOperation operation := by
    intro operation member
    obtain ⟨entry, listed, performs⟩ := each operation member
    obtain ⟨root, starts, inRoot⟩ := exists_root_of_mem listed
    exact sound.plainOperation readable starts (isRootType_of_ofItems built starts).isObject inRoot performs
  refine ⟨operations.map (Discriminator.decorateOperation schema), ?_, ?_, ?_⟩
  · rw [defaultDocument_eq, done, ok_bind, joined, Document.withDiscriminators_ofOperations plain]
  · intro operation member
    obtain ⟨earlier, listed, rfl⟩ := List.mem_map.mp member
    exact (plain earlier listed).decorate sound.string
  · have same : (operations.map (Discriminator.decorateOperation schema)).map Operation.name? =
        operations.map Operation.name? := by
      rw [List.map_map]
      rfl
    rw [same, names, rootOperations_eq sound.roots, List.map_map]
    have distinct := List.Nodup.map (fun _ _ same => Option.some.inj same) sound.roots
    rwa [List.map_map] at distinct

/-- A field that is found in a schema that was read has a name and a type that can be written. -/
theorem Readable.of_field? (readable : schema.Readable) {parent : TypeDefinition}
    (known : schema.type? parent.name = some parent) {name : String} {definition : FieldDefinition}
    (found : schema.field? parent name = some definition) :
    definition.type.hasDoubleNonNull = false ∧ name ≠ "" := by
  unfold Schema.field? at found
  split at found
  · rename_i named
    cases found
    exact ⟨rfl, by rw [named.1]; decide⟩
  split at found
  · rename_i named
    cases found
    exact ⟨rfl, by rw [named.1]; decide⟩
  split at found
  · rename_i named
    cases found
    exact ⟨rfl, by rw [named.1]; decide⟩
  · have own := readable.field (mem_of_type? known) (List.mem_of_find?_eq_some found)
    have named : definition.name = name := by simpa using List.find?_some found
    refine ⟨own.type.single, ?_⟩
    rintro rfl
    have isName := own.isName
    rw [named] at isName
    exact absurd isName (by decide)

end Schema

namespace Compiler

variable {c : Compiler} {root above : TypeDefinition} {start inner : List Selection} {head : FieldHead}

theorem Finds.known {parent : TypeDefinition} {selections : List Selection} {branches : List String}
    (found : c.Finds parent selections branches above head inner)
    (known : c.schema.type? parent.name = some parent) : c.schema.type? above.name = some above := by
  induction found with
  | here selected => exact known
  | merged selected fragment applies onward ih => exact ih known
  | branched selected fragment opened onward ih => exact ih (fragment.known known)

theorem Selected.known (selected : c.Selected root start above head inner)
    (known : c.schema.type? root.name = some root) : c.schema.type? above.name = some above := by
  induction selected with
  | top found => exact found.known known
  | deeper selected looked hasFields found ih =>
    have typed := (type?_of_fieldType looked).2
    exact found.known (by rwa [Schema.name_of_type? typed])

end Compiler

/-- What the definition of each field on its type has, the fields of compiled operations have at every depth. -/
theorem Document.everywhere_of_field? {schema : Schema} {document : Document} {options : Options} {compiled : Compiled}
    (done : document.compile schema options = .ok compiled) {holds : ResponseField → Prop}
    (absorbing : ResponseField.Absorbing holds)
    (each : ∀ above head definition conditional shape, schema.type? above.name = some above →
      schema.field? above head.name = some definition → holds (Compiler.makeField head definition conditional shape)) :
    ∀ operation ∈ compiled.operations, ∀ field ∈ operation.fields, field.Everywhere holds := by
  intro operation member
  obtain ⟨_, _, _, ofOperations, _⟩ := document.exists_leaves done
  obtain ⟨source, _, root, s, compiles, _⟩ := ofOperations operation member
  have known := (Schema.name_of_root compiles.starts).2
  have all : s.Everywhere holds := by
    refine compiles.run.everywhere absorbing ?_ ?_ (List.Subset.refl _)
    · intro above head inner definition type conditional selected looked simple _
      exact each above head definition conditional _ (selected.known known) (Compiler.type?_of_fieldType looked).1
    · intro above head inner definition type conditional stack below selected looked hasFields run
      exact each above head definition conditional _ (selected.known known) (Compiler.type?_of_fieldType looked).1
  rw [compiles.fields]
  exact all none

def ResponseField.IsProper (field : ResponseField) : Prop := field.IsSingle ∧ field.fieldName ≠ ""

theorem Document.isProper_of_compile {schema : Schema} (readable : schema.Readable) {document : Document}
    {options : Options} {compiled : Compiled} (done : document.compile schema options = .ok compiled) :
    ∀ operation ∈ compiled.operations, ∀ field ∈ operation.fields, field.Everywhere ResponseField.IsProper :=
  everywhere_of_field? done (fun _ _ _ own _ => own) fun _ _ _ _ _ known found => readable.of_field? known found

theorem Schema.rootField?_eq_ok {schema : Schema} {name : String} {found : RootField}
    (looked : schema.rootField? name = .ok (some found)) :
    ∃ root, schema.root found.kind = .ok root ∧ root.field? name = some found.field := by
  unfold Schema.rootField? at looked
  split at looked
  · cases looked
  · obtain ⟨kind, _, own⟩ := List.exists_of_findSome?_eq_some (Except.ok.inj looked)
    obtain ⟨root, starts, own⟩ := Option.bind_eq_some_iff.mp own
    obtain ⟨definition, listed, own⟩ := Option.bind_eq_some_iff.mp own
    cases own
    refine ⟨root, ?_, listed⟩
    cases outcome : schema.root kind with
    | error fault =>
      rw [outcome] at starts
      cases starts
    | ok type =>
      rw [outcome] at starts
      cases starts
      rfl

namespace TypeScript

variable {e : Emission} {kind : OperationKind} {name : String}

/-- The definition of a root field is looked up on the root type of the operation. -/
theorem rootDefinition?_eq_ok {definition : FieldDefinition}
    (done : rootDefinition? e kind name = .ok (some definition)) :
    ∃ root, e.schema.root kind = .ok root ∧ root.field? name = some definition := by
  have onRoot (done : (do return (← e.schema.root kind).field? name) = Except.ok (some definition)) :
      ∃ root, e.schema.root kind = .ok root ∧ root.field? name = some definition := by
    obtain ⟨root, starts, done⟩ := bind_eq_ok.mp done
    exact ⟨root, starts, Except.ok.inj done⟩
  obtain ⟨found, looked, done⟩ := bind_eq_ok.mp done
  cases found with
  | none => exact onRoot done
  | some found =>
    dsimp only at done
    split at done
    · rename_i same
      cases done
      obtain ⟨root, starts, listed⟩ := Schema.rootField?_eq_ok looked
      exact ⟨root, same ▸ starts, listed⟩
    · exact onRoot done

theorem succeeds_rootDefinition? {root : TypeDefinition} (starts : e.schema.root kind = .ok root)
    (named : name ≠ "") : Succeeds (rootDefinition? e kind name) := by
  have looked : Succeeds (e.schema.rootField? name) := by
    unfold Schema.rootField?
    rw [if_neg (by simpa using named)]
    exact .ok _
  refine looked.bind fun found => ?_
  cases found with
  | none =>
    dsimp only
    rw [starts]
    exact .ok _
  | some found =>
    dsimp only
    split
    · exact .ok _
    · rw [starts]
      exact .ok _

theorem succeeds_method? (readable : e.schema.Readable) {operation : CompiledOperation} {root : TypeDefinition}
    (starts : e.schema.root operation.kind = .ok root)
    (named : ∀ field ∈ operation.fields, field.fieldName ≠ "") : Succeeds (method? e operation) := by
  unfold method?
  cases first : operation.fields.head? with
  | none => exact .ok _
  | some field =>
    refine FailsOnly.bind (succeeds_rootDefinition? starts (named field (List.mem_of_head? first))) ?_
    intro found looked
    cases found with
    | none => exact .ok _
    | some definition =>
      obtain ⟨_, also, listed⟩ := rootDefinition?_eq_ok looked
      have own := readable.field (Schema.mem_of_type? (Schema.name_of_root also).2)
        (List.mem_of_find?_eq_some listed)
      refine Succeeds.map (.mapM fun argument member => ?_) _
      exact (Emission.succeeds_leafType (own.arguments argument member).type.single).map _

end TypeScript

section Plain

variable {schema : Schema} {operations : List Operation}
  (plain : ∀ operation ∈ operations, schema.PlainOperation operation)

include plain

theorem Document.prepare_ofOperations (scalar : schema.IsBuiltIn "String") (adds : Bool) :
    ∃ prepared, (Document.ofOperations operations).prepare schema adds = .ok (.ofOperations prepared) ∧
      ∀ operation ∈ prepared, schema.PlainOperation operation := by
  cases adds with
  | false => exact ⟨operations, rfl, plain⟩
  | true =>
    refine ⟨_, Document.withDiscriminators_ofOperations plain, ?_⟩
    intro operation member
    obtain ⟨earlier, listed, rfl⟩ := List.mem_map.mp member
    exact (plain earlier listed).decorate scalar

/-- What plain operations are compiled to can be written. -/
theorem Emission.succeeds_source_of_plain (readable : schema.Readable) {options : Options} {compiled : Compiled}
    (done : (Document.ofOperations operations).compile schema options = .ok compiled) (shown : Options)
    (synthesized : Bool) (target : Target) : Succeeds (Emission.source ⟨compiled, shown, synthesized⟩ target) := by
  have proper := Document.isProper_of_compile readable done
  obtain ⟨leaves, same, _, ofOperations, ofFragments⟩ := Document.exists_leaves done
  let e : Emission := ⟨compiled, shown, synthesized⟩
  have readableAlso : e.schema.Readable := by rwa [← same] at readable
  refine Emission.succeeds_source ⟨?_, ?_, ?_, ?_⟩ ?_ target
  · exact fun operation member field inFields inner within => (proper operation member field inFields inner within).1
  · intro operation member v listed
    obtain ⟨source, inDocument, root, s, compiles, _⟩ := ofOperations operation member
    rw [compiles.parameters] at listed
    obtain ⟨definition, inSource, rfl⟩ := List.mem_map.mp listed
    rw [Document.operations_ofOperations] at inDocument
    exact ((plain source inDocument).parameters definition inSource).2
  · intro fragment member
    obtain ⟨source, inDocument, _⟩ := ofFragments fragment member
    rw [Document.fragments_ofOperations] at inDocument
    cases inDocument
  · intro type used field member
    obtain ⟨name, _, known⟩ := List.mem_filterMap.mp (List.mem_of_mem_filter used)
    exact (readableAlso.inputField (Schema.mem_of_type? known) member).type.single
  · intro _ operation member
    obtain ⟨source, inDocument, root, s, compiles, _⟩ := ofOperations operation member
    have starts : e.schema.root operation.kind = .ok root := by
      change compiled.schema.root operation.kind = .ok root
      rw [same, compiles.kind]
      exact compiles.starts
    apply TypeScript.succeeds_method? readableAlso starts
    · intro field inFields
      exact (proper operation member field inFields field (.here List.mem_cons_self)).2

/-- A valid document of plain operations is generated for every target. -/
theorem Schema.exists_artifacts_of_plain (readable : schema.Readable) (scalar : schema.IsBuiltIn "String")
    {document : Option Document} {target : Target}
    (checked : schema.validDocument document target = .ok (.ofOperations operations)) {options : Options}
    (valid : options.validate = .ok ()) : ∃ artifacts, schema.generate document target options = .ok artifacts := by
  obtain ⟨prepared, ready, stillPlain⟩ :=
    Document.prepare_ofOperations plain scalar (options.forTarget target).addTypename
  obtain ⟨compiled, done⟩ := Document.compile_ofOperations stillPlain (options.forTarget target)
  obtain ⟨source, written⟩ := succeeds_iff.mp (Emission.succeeds_source_of_plain stillPlain readable done
    (options.forTarget target) document.isNone target)
  rw [Schema.generate_eq, valid, ok_bind, checked, ok_bind, ready, ok_bind, done, ok_bind, written]
  exact ⟨_, rfl⟩

end Plain

/-- The default operations of a sound schema are valid. -/
theorem Schema.validDocument_none {schema : Schema} {operations : List Operation}
    (made : schema.defaultDocument = .ok (.ofOperations operations))
    (plain : ∀ operation ∈ operations, schema.PlainOperation operation)
    (distinct : (operations.map Operation.name?).Nodup) (target : Target) :
    schema.validDocument none target = .ok (.ofOperations operations) := by
  unfold Schema.validDocument
  dsimp only
  rw [made, ok_bind, Document.validate_ofOperations plain distinct]
  rfl

namespace Library

def text : String :=
  "type Query\x7bfind(ids:[ID!]!):[Item!] me:Query\x7dtype Mutation\x7badd(book:New!):Book\x7d" ++
    "union Item=Book type Book\x7bnth(n:Int!):Book items:[Item]\x7dinput New\x7blike:New\x7d"

def items : List SchemaItem :=
  [.type ⟨"Query", none, .object [] [
      ⟨"find", none, [⟨"ids", none, .nonNull (.list (.nonNull (.named "ID"))), false⟩],
        .list (.nonNull (.named "Item"))⟩,
      ⟨"me", none, [], .named "Query"⟩]⟩,
    .type ⟨"Mutation", none, .object [] [
      ⟨"add", none, [⟨"book", none, .nonNull (.named "New"), false⟩], .named "Book"⟩]⟩,
    .type ⟨"Item", none, .union ["Book"]⟩,
    .type ⟨"Book", none, .object [] [
      ⟨"nth", none, [⟨"n", none, .nonNull (.named "Int"), false⟩], .named "Book"⟩,
      ⟨"items", none, [], .list (.named "Item")⟩]⟩,
    .type ⟨"New", none, .input [⟨"like", none, .named "New", false⟩]⟩]

def schema : Schema := ⟨Schema.definitionsOf items, "Query", some "Mutation", none⟩

theorem read : Schema.read none text = .ok schema := by decide +kernel

theorem sound : schema.Sound where
  builtIn := by
    unfold Schema.IsBuiltIn
    decide
  outputs := by decide
  inputs := by decide
  distinct := by decide
  unreserved := by decide
  roots := by decide

theorem shallow : schema.Shallow := by
  unfold Schema.Shallow
  decide +kernel

end Library

/-- The default operations of a sound schema are generated for every target. -/
theorem default_operations_generated {path : Option String} {text : String} {schema : Schema}
    (read : Schema.read path text = .ok schema) (sound : schema.Sound) (shallow : schema.Shallow)
    {options : Options} (valid : options.validate = .ok ()) (target : Target) :
    ∃ artifacts, schema.generate none target options = .ok artifacts := by
  have readable := Schema.readable_of_read read
  obtain ⟨items, _, built⟩ := bind_eq_ok.mp read
  obtain ⟨operations, made, plain, distinct⟩ := schema.exists_defaultDocument built readable sound shallow
  have checked := Schema.validDocument_none made plain distinct target
  exact Schema.exists_artifacts_of_plain plain readable sound.string checked valid

/-- A schema with cycles, a union, fields that need arguments and two root types. -/
theorem default_operations_generated_library :
    Schema.read none Library.text = .ok Library.schema ∧ Library.schema.Sound ∧ Library.schema.Shallow ∧
      Library.schema.rootOperations.length = 3 ∧
      ∀ target, ∃ artifacts, Library.schema.generate none target {} = .ok artifacts :=
  ⟨Library.read, Library.sound, Library.shallow, by decide,
    default_operations_generated Library.read Library.sound Library.shallow rfl⟩

end QueryTypes
