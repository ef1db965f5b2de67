import QueryTypes.Proofs.Coherence
import QueryTypes.Proofs.CompiledRuns

namespace QueryTypes

open ResponseField

namespace Schema

/-- A type has the field that is selected, with the type that it is compiled with. -/
def Declares (schema : Schema) (type : TypeDefinition) (field : ResponseField) : Prop :=
  ∃ definition, schema.field? type field.fieldName = some definition ∧ definition.type = field.type

def DeclaresOn (schema : Schema) (object : String) (field : ResponseField) : Prop :=
  ∃ type, schema.type? object = some type ∧ schema.Declares type field

variable {schema : Schema}

theorem absorbing_declares (type : TypeDefinition) : Absorbing (schema.Declares type) :=
  fun _ _ _ left _ => left

theorem isObject_of_name_eq_query {items : List SchemaItem} (built : ofItems items = .ok schema)
    {type : TypeDefinition} (known : schema.type? type.name = some type)
    (isQuery : type.name = schema.query) : type.isObject := by
  have root : schema.root .query = .ok type := by
    simp [Schema.root, rootName?, ← isQuery, known]
  exact (isRootType_of_ofItems built root).isObject

/-- The field of a type is one of all its object types. -/
theorem InheritsFields.field?_of_possible (inherits : schema.InheritsFields)
    {items : List SchemaItem} (built : ofItems items = .ok schema) (members : schema.UnionsOfObjects)
    {super : TypeDefinition} (known : schema.type? super.name = some super) {object : String}
    (possible : object ∈ schema.possibleTypes super.name) {name : String}
    {definition : FieldDefinition} (found : schema.field? super name = some definition) :
    ∃ type own, schema.type? object = some type ∧ schema.field? type name = some own ∧
      own.type = definition.type := by
  have distinct := distinct_of_ofItems built
  obtain ⟨type, knownObject, isObject⟩ := distinct.object_of_possible members possible
  have named := name_of_type? knownObject
  by_cases same : super.isObject
  · rw [possibleTypes_of_isObject known same, List.mem_singleton] at possible
    rw [possible, known] at knownObject
    cases knownObject
    exact ⟨super, definition, by rw [possible]; exact known, found, rfl⟩
  · have noRoot : super.name ≠ schema.query :=
      fun isQuery => same (isObject_of_name_eq_query built known isQuery)
    have listed : object ∈ schema.listed super.name := by
      simpa [possibleTypes, known, same] using possible
    have found : (if name = typenameField ∧ super.isComposite then some .typenameMeta
        else super.field? name) = some definition := by
      simpa [field?, noRoot] using found
    refine ⟨type, ?_⟩
    split at found
    · rename_i selectsName
      cases found
      refine ⟨.typenameMeta, knownObject, ?_, rfl⟩
      have composite := TypeDefinition.isComposite_of_isObject isObject
      simp [field?, selectsName.1, composite, typenameField]
    · have member : definition ∈ super.fields := List.mem_of_find?_eq_some found
      have fieldName : definition.name = name := by simpa using List.find?_some found
      have implemented : super.name ∈ type.interfaces := by
        have knownType : schema.type? type.name = some type := by rwa [named]
        apply distinct.mem_interfaces known knownType
        · exact TypeDefinition.isInterface_of_mem_fields member same
        · rwa [named]
      obtain ⟨own, foundOwn, sameType⟩ := inherits type (mem_of_type? knownObject) super.name
        implemented super known definition member
      exact ⟨own, knownObject, by rwa [fieldName] at foundOwn, sameType⟩

theorem InheritsFields.declaresOn (inherits : schema.InheritsFields) {items : List SchemaItem}
    (built : ofItems items = .ok schema) (members : schema.UnionsOfObjects) {super : TypeDefinition}
    (known : schema.type? super.name = some super) {object : String}
    (possible : object ∈ schema.possibleTypes super.name) {field : ResponseField}
    (declares : schema.Declares super field) : schema.DeclaresOn object field := by
  obtain ⟨definition, found, type⟩ := declares
  obtain ⟨objectType, own, knownObject, foundOwn, same⟩ :=
    inherits.field?_of_possible built members known possible found
  exact ⟨objectType, knownObject, own, foundOwn, same.trans type⟩

end Schema

namespace Branch

open ResolvedBranch

variable {schema : Schema} {scope : List String} {branches : List Branch}

/-- An object type that branches apply to is one of the type that its group is named after. -/
theorem possible_groupOf (distinct : schema.Distinct) (members : schema.UnionsOfObjects) {type : String}
    (covered : ∃ branch ∈ branches.map (resolve schema scope), type ∈ branch.types) :
    type ∈ schema.possibleTypes (groupOf (branches.map (resolve schema scope)) type) := by
  rcases groupOf_cases (branches.map (resolve schema scope)) type with
    ⟨resolved, member, applies, named, _⟩ | alone
  · obtain ⟨branch, _, rfl⟩ := List.mem_map.mp member
    rw [named]
    exact ((mem_types_resolve ..).mp applies).1
  · obtain ⟨resolved, member, applies⟩ := covered
    obtain ⟨branch, _, rfl⟩ := List.mem_map.mp member
    obtain ⟨object, found, isObject⟩ :=
      distinct.object_of_possible members ((mem_types_resolve ..).mp applies).1
    rw [alone, Schema.possibleTypes_of_isObject found isObject]
    exact List.mem_singleton_self type

/-- A branch that applies to a type applies to all object types at hand of the type that the group is
    named after. -/
theorem applies_of_possible (distinct : schema.Distinct) (members : schema.UnionsOfObjects)
    {first object : String} (possible : object ∈ schema.possibleTypes
      (groupOf (branches.map (resolve schema scope)) first)) (inScope : object ∈ scope)
    {branch : ResolvedBranch} (member : branch ∈ branches.map (resolve schema scope))
    (applies : first ∈ branch.types) : object ∈ branch.types := by
  rcases groupOf_cases (branches.map (resolve schema scope)) first with
    ⟨resolved, inResolved, _, named, least⟩ | alone
  · obtain ⟨specific, _, rfl⟩ := List.mem_map.mp inResolved
    rw [named] at possible
    exact least branch member applies object ((mem_types_resolve ..).mpr ⟨possible, inScope⟩)
  · obtain ⟨other, _, rfl⟩ := List.mem_map.mp member
    obtain ⟨type, found, isObject⟩ :=
      distinct.object_of_possible members ((mem_types_resolve ..).mp applies).1
    rw [alone, Schema.possibleTypes_of_isObject found isObject, List.mem_singleton] at possible
    rwa [possible]

end Branch

namespace Compiler

variable {c : Compiler} {parent : TypeDefinition} {stack : List String} {selections : List Selection}

theorem Makes.declares {head : FieldHead} {inner : List Selection} {field : ResponseField}
    (makes : c.Makes parent head inner field) : c.schema.Declares parent field := by
  cases makes with
  | leaf looked => exact ⟨_, (type?_of_fieldType looked).1, rfl⟩
  | composite looked => exact ⟨_, (type?_of_fieldType looked).1, rfl⟩

def CollectedOn (c : Compiler) (parent : TypeDefinition) :
    Option String → TypeDefinition → Prop
  | none, type => type = parent
  | some condition, type => c.schema.type? condition = some type

def DeclaredAt (c : Compiler) (parent : TypeDefinition) (place : Option String)
    (field : ResponseField) : Prop :=
  ∃ type, c.CollectedOn parent place type ∧ c.schema.Declares type field

theorem Finds.collectedOn {branches : List String} {above : TypeDefinition} {head : FieldHead}
    {inner : List Selection} (found : c.Finds parent selections branches above head inner)
    (known : c.schema.type? parent.name = some parent) {place : Option String}
    (filed : FiledUnder branches place) : c.CollectedOn parent place above := by
  induction found generalizing place with
  | here =>
    cases place with
    | none => rfl
    | some condition =>
      obtain ⟨outer, split, _⟩ := filed
      exact absurd split (by simp)
  | merged selected fragment applies onward ih => exact ih known filed
  | branched selected fragment opened onward ih =>
    have knownCondition := fragment.known known
    cases place with
    | none => exact absurd filed (filedUnder_cons_none _ _)
    | some other =>
      rw [filedUnder_cons_some] at filed
      split at filed
      · rename_i same
        have above : _ = _ := ih knownCondition filed
        rw [same, above]
        exact knownCondition
      · exact ih knownCondition filed

theorem Run.declaredAt {s : Collection} (run : c.Run stack parent false selections {} s)
    (known : c.schema.type? parent.name = some parent) (place : Option String) :
    ∀ field ∈ s.fieldsAt place, c.DeclaredAt parent place field := by
  have absorbing (place : Option String) : Absorbing (c.DeclaredAt parent place) :=
    fun _ _ _ left _ => left
  apply run.forall_fieldsAt absorbing
  · rintro place field ⟨branches, above, head, inner, found, filed, makes⟩
    exact ⟨above, found.collectedOn known filed, makes.declares⟩
  · intro place field member
    cases place <;> cases member

/-- What is known of a case of selections on a type: it lists object types of this type and of the one
    that it is named after, and its fields come from selections that are there for all of these. -/
structure CaseSourced (c : Compiler) (sources : TypeDefinition → List Selection → Prop)
    (parent : TypeDefinition) (typeCase : TypeCase ResponseField) : Prop where
  inhabited : ∃ object, object ∈ typeCase.possibleTypes
  possible : ∀ object ∈ typeCase.possibleTypes,
    object ∈ c.schema.possibleTypes typeCase.condition ∧ object ∈ c.schema.possibleTypes parent.name
  nodes : ∀ object ∈ c.schema.possibleTypes typeCase.condition,
    object ∈ c.schema.possibleTypes parent.name → ∀ child ∈ typeCase.fields,
      c.MadeFrom (c.onlyFor sources object child.responseName) child

def CaseDeclared (c : Compiler) (parent : TypeDefinition) (typeCase : TypeCase ResponseField) : Prop :=
  ∀ object ∈ c.schema.possibleTypes typeCase.condition,
    object ∈ c.schema.possibleTypes parent.name → ∀ child ∈ typeCase.fields,
      c.schema.DeclaresOn object child

section Cases

variable {sources : TypeDefinition → List Selection → Prop} {items : List SchemaItem}
  {existing typeCase : TypeCase ResponseField}

theorem CaseSourced.absorb (same : existing.condition = typeCase.condition)
    (left : c.CaseSourced sources parent existing) (right : c.CaseSourced sources parent typeCase) :
    c.CaseSourced sources parent (existing.absorb typeCase) := by
  refine ⟨left.inhabited, left.possible, ?_⟩
  intro object admitted possible
  apply (absorbing_node (c.onlyFor sources object)).mergeAll (left.nodes object admitted possible)
  rw [TypeCase.condition_absorb, same] at admitted
  exact right.nodes object admitted possible

theorem CaseDeclared.absorb (same : existing.condition = typeCase.condition)
    (left : c.CaseDeclared parent existing) (right : c.CaseDeclared parent typeCase) :
    c.CaseDeclared parent (existing.absorb typeCase) := by
  intro object admitted possible
  have absorbing : Absorbing (c.schema.DeclaresOn object) := fun _ _ _ left _ => left
  apply absorbing.mergeAll (left object admitted possible)
  rw [TypeCase.condition_absorb, same] at admitted
  exact right object admitted possible

theorem Run.caseSourced (distinct : c.schema.Distinct) (members : c.schema.UnionsOfObjects)
    {s : Collection} (run : c.Run stack parent false selections {} s) (listed : sources parent selections)
    (member : typeCase ∈ (c.finish parent s).cases) : c.CaseSourced sources parent typeCase := by
  obtain ⟨first, inTypes, covered, named, induct⟩ := ResolvedBranch.exists_first member
  refine ⟨⟨first, inTypes⟩, ?_, ?_⟩
  · intro object inCase
    obtain ⟨⟨resolved, inResolved, applies⟩, same⟩ := ResolvedBranch.eq_caseOf_of_lists member inCase
    constructor
    · have condition : typeCase.condition = _ := congrArg TypeCase.condition same
      rw [condition]
      exact Branch.possible_groupOf distinct members ⟨resolved, inResolved, applies⟩
    · obtain ⟨branch, _, rfl⟩ := List.mem_map.mp inResolved
      exact ((Branch.mem_types_resolve ..).mp applies).2
  · intro object admitted possible
    obtain ⟨ofTarget, ofBranches⟩ := run.node_onlyFor listed possible
    apply induct _ (absorbing_node (c.onlyFor sources object)) ofTarget
    intro resolved inResolved applies
    rw [named] at admitted
    have onObject := Branch.applies_of_possible distinct members admitted possible inResolved applies
    obtain ⟨branch, inBranches, rfl⟩ := List.mem_map.mp inResolved
    exact ofBranches branch inBranches ((Branch.mem_types_resolve ..).mp onObject).1

theorem Run.caseDeclared (built : Schema.ofItems items = .ok c.schema)
    (inherits : c.schema.InheritsFields) (members : c.schema.UnionsOfObjects) {s : Collection}
    (run : c.Run stack parent false selections {} s)
    (known : c.schema.type? parent.name = some parent)
    (member : typeCase ∈ (c.finish parent s).cases) : c.CaseDeclared parent typeCase := by
  have distinct := Schema.distinct_of_ofItems built
  have kind : s.WellKeyed := run.wellKeyed Collection.wellKeyed_empty
  obtain ⟨first, inTypes, covered, named, induct⟩ := ResolvedBranch.exists_first member
  intro object admitted possible
  apply induct (c.schema.DeclaresOn object) fun _ _ _ left _ => left
  · intro child inTarget
    obtain ⟨type, rfl, declares⟩ := run.declaredAt known none child inTarget
    exact inherits.declaresOn built members known possible declares
  · intro resolved inResolved applies child inBranch
    rw [named] at admitted
    have onObject := Branch.applies_of_possible distinct members admitted possible inResolved applies
    obtain ⟨branch, inBranches, rfl⟩ := List.mem_map.mp inResolved
    have admits := ((Branch.mem_types_resolve ..).mp onObject).1
    have atBranch : child ∈ s.fieldsAt (some branch.condition) := by
      rw [kind.fieldsAt_branch inBranches]
      exact inBranch
    obtain ⟨type, found, declares⟩ := run.declaredAt known (some branch.condition) child atBranch
    have found : c.schema.type? branch.condition = some type := found
    have sameName := Schema.name_of_type? found
    rw [← sameName] at admits found
    exact inherits.declaresOn built members found admits declares

/-- The cases of what is blended from selections on one type come from these. -/
theorem Blend.caseSourced (distinct : c.schema.Distinct) (members : c.schema.UnionsOfObjects)
    (same : ∀ type inner, sources type inner → type = parent) {fields : List ResponseField}
    {cases : List (TypeCase ResponseField)} (blend : c.Blend sources fields cases) :
    ∀ typeCase ∈ cases, c.CaseSourced sources parent typeCase := by
  induction blend with
  | empty => exact nofun
  | source listed inside =>
    obtain rfl := same _ _ listed
    exact fun typeCase => inside.caseSourced distinct members listed
  | merge _ _ left right =>
    rw [mergeCases_eq]
    apply forall_mem_mergeBy left right
    intro typeCase member existing sameCondition sourced
    exact sourced.absorb sameCondition (right typeCase member)

/-- What is blended from selections on one type is declared on this type. -/
theorem Blend.declares (built : Schema.ofItems items = .ok c.schema)
    (inherits : c.schema.InheritsFields) (members : c.schema.UnionsOfObjects)
    (known : c.schema.type? parent.name = some parent)
    (same : ∀ type inner, sources type inner → type = parent) {fields : List ResponseField}
    {cases : List (TypeCase ResponseField)} (blend : c.Blend sources fields cases) :
    (∀ child ∈ fields, c.schema.Declares parent child) ∧
      ∀ typeCase ∈ cases, c.CaseDeclared parent typeCase := by
  induction blend with
  | empty => exact ⟨nofun, nofun⟩
  | source listed inside =>
    obtain rfl := same _ _ listed
    refine ⟨?_, fun typeCase => inside.caseDeclared built inherits members known⟩
    intro child member
    obtain ⟨type, rfl, declares⟩ := inside.declaredAt known none child member
    exact declares
  | merge _ _ left right =>
    refine ⟨(Schema.absorbing_declares parent).mergeAll left.1 right.1, ?_⟩
    rw [mergeCases_eq]
    apply forall_mem_mergeBy left.2 right.2
    intro typeCase member existing sameCondition declared
    exact declared.absorb sameCondition (right.2 typeCase member)

end Cases

section Meeting

variable {root : TypeDefinition} {start : List Selection}

theorem Gathers.known {place : Option String} {key : String} {type : TypeDefinition}
    {inner : List Selection} (gathers : c.Gathers parent selections place key type inner) :
    c.schema.type? type.name = some type := by
  obtain ⟨_, _, _, _, _, _, _, looked, _⟩ := gathers
  have found := (type?_of_fieldType looked).2
  rwa [Schema.name_of_type? found]

theorem Meets.known {other : TypeDefinition} {others : List Selection}
    (meets : c.Meets root start parent selections other others)
    (known : c.schema.type? root.name = some root) : c.schema.type? parent.name = some parent := by
  cases meets with
  | itself => exact known
  | deeper _ left => exact left.known

/-- Selections that meet are all on one type, if any two are. -/
theorem Meeting.exists_parent {sources : TypeDefinition → List Selection → Prop}
    (meeting : c.Meeting root start sources) (known : c.schema.type? root.name = some root)
    (same : ∀ parent selections other others, c.Meets root start parent selections other others →
      parent = other) :
    ∃ parent, c.schema.type? parent.name = some parent ∧
      ∀ type inner, sources type inner → type = parent := by
  by_cases some : ∃ type inner, sources type inner
  · obtain ⟨type, inner, listed⟩ := some
    refine ⟨type, (meeting _ _ _ _ listed listed).known known, ?_⟩
    intro other others also
    exact same _ _ _ _ (meeting _ _ _ _ also listed)
  · exact ⟨root, known, fun type inner listed => absurd ⟨type, inner, listed⟩ some⟩

/-- If only selections on one type meet, every field at every depth comes from selections that meet. -/
theorem sourced_of_within (distinct : c.schema.Distinct) (members : c.schema.UnionsOfObjects)
    (known : c.schema.type? root.name = some root)
    (same : ∀ parent selections other others, c.Meets root start parent selections other others →
      parent = other)
    {field : ResponseField} {fields : List ResponseField} (within : Within field fields)
    (nodes : ∀ field ∈ fields, c.Sourced root start field) : c.Sourced root start field := by
  apply within.holds (fun field => Sourced.fields) _ nodes
  rintro field ⟨sources, meeting, node⟩ typeCase listed child member
  obtain ⟨parent, knownParent, onParent⟩ := meeting.exists_parent known same
  have sourced := node.blend.caseSourced distinct members onParent typeCase listed
  obtain ⟨object, inCase⟩ := sourced.inhabited
  obtain ⟨admitted, possible⟩ := sourced.possible object inCase
  exact ⟨_, meeting.onlyFor object child.responseName, sourced.nodes object admitted possible child member⟩

/-- If only selections on one type meet, the fields below every field are declared on its type and on
    the object types of its cases. -/
theorem declares_of_within {items : List SchemaItem} (built : Schema.ofItems items = .ok c.schema)
    (inherits : c.schema.InheritsFields) (members : c.schema.UnionsOfObjects)
    (known : c.schema.type? root.name = some root)
    (same : ∀ parent selections other others, c.Meets root start parent selections other others →
      parent = other)
    {field : ResponseField} {fields : List ResponseField} (within : Within field fields)
    (nodes : ∀ field ∈ fields, c.Sourced root start field) {type : TypeDefinition}
    (found : c.schema.type? field.type.baseName = some type) (hasFields : type.isComposite = true) :
    (∀ child ∈ field.fields, c.schema.Declares type child) ∧
      ∀ typeCase ∈ field.cases, ∀ object ∈ typeCase.possibleTypes, ∀ child ∈ typeCase.fields,
        c.schema.DeclaresOn object child := by
  have distinct := Schema.distinct_of_ofItems built
  obtain ⟨sources, meeting, node⟩ := sourced_of_within distinct members known same within nodes
  obtain ⟨parent, knownParent, onParent⟩ := meeting.exists_parent known same
  obtain ⟨inner, listed⟩ := node.typed type found hasFields
  obtain rfl := onParent type inner listed
  obtain ⟨ofFields, ofCases⟩ := node.blend.declares built inherits members knownParent onParent
  refine ⟨ofFields, ?_⟩
  intro typeCase member object inCase
  have sourced := node.blend.caseSourced distinct members onParent typeCase member
  obtain ⟨admitted, possible⟩ := sourced.possible object inCase
  exact ofCases typeCase member object admitted possible

end Meeting

end Compiler

theorem Document.Starts.known {schema : Schema} {items : List SchemaItem}
    (built : Schema.ofItems items = .ok schema) {document : Document} {root : TypeDefinition}
    {start : List Selection} (starts : document.Starts schema root start) :
    schema.type? root.name = some root := by
  rcases starts with ⟨operation, _, found, _⟩ | ⟨fragment, _, found, _⟩
  · exact (Schema.isRootType_of_ofItems built found).known
  · rwa [Schema.name_of_type? found]

-- Two fields of different types under one key.
namespace Crossed

def field (label : Option String) (name : String) (inner : List Selection) : Selection :=
  .field ⟨.start, label, name, [], []⟩ default inner

def query : TypeDefinition :=
  ⟨"Query", none, .object [] [⟨"n", none, [], .named "A"⟩, ⟨"m", none, [], .named "B"⟩]⟩

def items : List SchemaItem :=
  [.type query, .type ⟨"A", none, .object [] [⟨"x", none, [], .named "Int"⟩]⟩,
    .type ⟨"B", none, .object [] [⟨"y", none, [], .named "Int"⟩]⟩]

def schema : Schema := ⟨Schema.definitionsOf items, "Query", none, none⟩

def selections : List Selection :=
  [field none "n" [field none "x" []], field (some "n") "m" [field none "y" []]]

def compiledField : ResponseField :=
  ⟨"n", "n", .named "A", none, false,
    [⟨"x", "x", .named "Int", none, false, [], [], []⟩, ⟨"y", "y", .named "Int", none, false, [], [], []⟩],
    [], []⟩

theorem run : ((Document.ofQuery selections).compiler schema true).Run [] query false selections {}
    ⟨⟨[compiledField], []⟩, [], ["Int"]⟩ := Compiler.collectAll_eq_ok_iff.mp rfl

end Crossed

/-- If composite fields meet under one key only if they have the same type, then in a compiled document
    the fields below a field of a composite type are fields of this type, and those in a case are
    fields of every object type of the case, each with the type that it has there. -/
theorem compiled_fields_declared {items : List SchemaItem} {schema : Schema}
    (built : Schema.ofItems items = .ok schema) (inherits : schema.InheritsFields)
    (members : schema.UnionsOfObjects) {options : Options} {document : Document} {compiled : Compiled}
    (done : document.compile schema options = .ok compiled)
    (same : ∀ root start, document.Starts schema root start →
      ∀ parent selections other others,
        (document.compiler schema options.mergeSpreads).Meets root start parent selections other others →
        parent = other)
    {field : ResponseField}
    (within : (∃ operation ∈ compiled.operations, Within field operation.fields) ∨
      ∃ fragment ∈ compiled.fragments, Within field [fragment.toField])
    {type : TypeDefinition} (found : schema.type? field.type.baseName = some type)
    (hasFields : type.isComposite = true) :
    (∀ child ∈ field.fields, schema.Declares type child) ∧
      ∀ typeCase ∈ field.cases, ∀ object ∈ typeCase.possibleTypes, ∀ child ∈ typeCase.fields,
        schema.DeclaresOn object child := by
  rcases within with ⟨operation, member, within⟩ | ⟨fragment, member, within⟩
  · obtain ⟨root, start, starts, sourced⟩ := Document.sourced_of_operation done member
    exact Compiler.declares_of_within built inherits members (starts.known built)
      (same root start starts) within sourced found hasFields
  · obtain ⟨root, start, starts, sourced⟩ := Document.sourced_of_fragment done member
    exact Compiler.declares_of_within built inherits members (starts.known built)
      (same root start starts) within (by simpa using sourced) found hasFields

/-- The valid query `n { x } n: m { y }` is compiled to a field of the type `A` that has a field `y`
    below it, which `A` has not. -/
theorem merged_field_undeclared :
    Schema.ofItems Crossed.items = .ok Crossed.schema ∧ Crossed.schema.InheritsFields ∧
    Crossed.schema.UnionsOfObjects ∧
    (Document.ofQuery Crossed.selections).validate Crossed.schema false = .ok () ∧
    ∃ compiled, (Document.ofQuery Crossed.selections).compile Crossed.schema {} = .ok compiled ∧
      ∃ operation ∈ compiled.operations, ∃ field ∈ operation.fields, ∃ child ∈ field.fields,
        ∃ type, Crossed.schema.type? field.type.baseName = some type ∧ type.isComposite = true ∧
          Crossed.schema.field? type child.fieldName = none := by
  obtain ⟨compiled, operation, done, member, fields⟩ :=
    Document.compile_ofQuery rfl Crossed.run rfl rfl
  refine ⟨rfl, by decide, by decide, rfl, compiled, done, operation, member, Crossed.compiledField,
    ?_, _, List.mem_cons_of_mem _ List.mem_cons_self, _, rfl, rfl, rfl⟩
  rw [fields]
  exact List.mem_singleton_self _

/-- In the query `n { x ... on B { y } } n { x ... on B { y } }` the field `x` is one of `A`, and in the
    case of `T` the fields `x` and `y` are fields of `T`. -/
theorem compiled_fields_declared_repeated :
    ∃ compiled, (Document.ofQuery Overlap.repeated).compile Overlap.schema {} = .ok compiled ∧
      ∃ operation ∈ compiled.operations, operation.fields = [Overlap.repeatedField] ∧
        Overlap.schema.Declares Overlap.interfaceA (Overlap.leaf "x") ∧
        Overlap.schema.DeclaresOn "T" (Overlap.leaf "y") := by
  obtain ⟨compiled, operation, done, member, fields⟩ :=
    Document.compile_ofQuery rfl Overlap.repeated_run rfl rfl
  have inFields : Overlap.repeatedField ∈ operation.fields := by
    rw [fields]
    exact List.mem_singleton_self _
  obtain ⟨onType, onObjects⟩ := compiled_fields_declared Overlap.built (by decide)
    Overlap.unionsOfObjects done
    (by
      intro root start starts parent selections other others meets
      obtain ⟨rfl, rfl⟩ := Document.starts_ofQuery rfl starts
      exact (Overlap.meets_repeated meets).1)
    (.inl ⟨operation, member, .here inFields⟩) rfl rfl
  exact ⟨compiled, done, operation, member, fields, onType _ List.mem_cons_self,
    onObjects _ List.mem_cons_self "T" (by decide) _ (List.mem_cons_of_mem _ List.mem_cons_self)⟩

end QueryTypes
