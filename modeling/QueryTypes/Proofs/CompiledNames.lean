import QueryTypes.Proofs.Decoding
import QueryTypes.Proofs.MeetingSelections
import QueryTypes.Proofs.ReadDocuments

namespace QueryTypes

open ResponseField

/-- The names that a field is declared with are names of the language. -/
structure ResponseField.Named (field : ResponseField) : Prop where
  responseName : isName field.responseName = true
  type : isName field.type.baseName = true
  cases : ∀ typeCase ∈ field.cases, isName typeCase.condition = true ∧
    ∀ type ∈ typeCase.possibleTypes, isName type = true

theorem ResponseField.absorbing_named : Absorbing Named := by
  intro x y _ left right
  refine ⟨left.responseName, left.type, ?_⟩
  change ∀ typeCase ∈ mergeCases x.cases y.cases, _
  rw [mergeCases_eq]
  exact forall_mem_mergeBy left.cases right.cases fun _ _ _ _ named => named

theorem ResponseField.Named.of_propertySet {field : ResponseField} (named : field.Named) {schema : Schema}
    (schemaReadable : schema.Readable) (diverges : field.cases ≠ []) {set : PropertySet}
    (member : set ∈ field.propertySets schema) :
    isName (field.setName set) = true ∧ ∀ type ∈ field.typenames schema set, isName type = true := by
  have others : isName (field.setName ⟨none, field.fields⟩) = true ∧
      ∀ type ∈ field.typenames schema ⟨none, field.fields⟩, isName type = true :=
    ⟨named.type, fun type listed => schemaReadable.isName_possibleTypes (mem_uncovered.mp listed).1⟩
  have ofCase (typeCase : TypeCase ResponseField) (inCases : typeCase ∈ field.cases) :
      isName (field.setName typeCase.shape) = true ∧
        ∀ type ∈ field.typenames schema typeCase.shape, isName type = true := by
    refine ⟨(named.cases typeCase inCases).1, ?_⟩
    change ∀ type ∈ ((field.cases.find? (·.condition == typeCase.condition)).map TypeCase.possibleTypes).getD [], _
    cases found : field.cases.find? (·.condition == typeCase.condition) with
    | none => exact nofun
    | some first => exact (named.cases first (List.mem_of_find?_eq_some found)).2
  rcases propertySets_eq schema diverges with sets | ⟨sets, _⟩
  · rw [sets, List.mem_append, List.mem_singleton] at member
    rcases member with inCases | rfl
    · obtain ⟨typeCase, listed, rfl⟩ := List.mem_map.mp inCases
      exact ofCase typeCase listed
    · exact others
  · rw [sets] at member
    obtain ⟨typeCase, inCases, rfl⟩ := List.mem_map.mp member
    exact ofCase typeCase inCases

theorem FieldHead.Readable.isName_responseName {depth : Nat} {head : FieldHead} (readable : head.Readable depth) :
    QueryTypes.isName head.responseName = true := by
  unfold FieldHead.responseName
  cases labelled : head.label with
  | none => exact readable.isName
  | some label => exact readable.label label labelled

namespace Compiler

def IsReadable (selections : List Selection) : Prop := ∀ selection ∈ selections, ∃ depth, selection.Readable depth

variable {c : Compiler} {root above parent : TypeDefinition} {start selections inner : List Selection} {head : FieldHead}

section Selected

variable (fragments : ∀ fragment ∈ c.fragments, IsReadable fragment.selectionSet.items)

include fragments

theorem FragmentOn.isReadable {selection : Selection} {condition : TypeDefinition}
    (fragment : c.FragmentOn parent selection condition inner) (own : ∃ depth, selection.Readable depth) :
    IsReadable inner := by
  cases fragment with
  | inline resolved =>
    obtain ⟨_, readable⟩ := own
    cases readable with
    | inline _ _ each => exact fun selection member => ⟨_, each selection member⟩
  | spread merged found resolved => exact fragments _ (List.mem_of_find?_eq_some found)

theorem Finds.readable {branches : List String} (found : c.Finds parent selections branches above head inner)
    (each : IsReadable selections) : (∃ depth, head.Readable depth) ∧ IsReadable inner := by
  induction found with
  | here selected =>
    obtain ⟨_, readable⟩ := each _ selected
    cases readable with
    | leaf own => exact ⟨⟨_, own⟩, nofun⟩
    | field own _ below => exact ⟨⟨_, own⟩, fun selection member => ⟨_, below selection member⟩⟩
  | merged selected fragment applies onward ih => exact ih (fragment.isReadable fragments (each _ selected))
  | branched selected fragment opened onward ih => exact ih (fragment.isReadable fragments (each _ selected))

theorem Selected.readable (selected : c.Selected root start above head inner) (each : IsReadable start) :
    (∃ depth, head.Readable depth) ∧ IsReadable inner := by
  induction selected with
  | top found => exact found.readable fragments each
  | deeper selected looked hasFields found ih => exact found.readable fragments ih.2

end Selected

section Named

variable (schemaReadable : c.schema.Readable)

include schemaReadable

theorem isName_of_type? {name : String} {type : TypeDefinition} (found : c.schema.type? name = some type) :
    isName name = true := by
  rw [← Schema.name_of_type? found]
  exact (schemaReadable type (Schema.mem_of_type? found)).isName

/-- A case is called after a type condition or after an object type. -/
theorem named_of_case {stack : List String} {shape : Shape} (compiled : c.shape stack parent selections = .ok shape)
    {typeCase : TypeCase ResponseField} (member : typeCase ∈ shape.cases) :
    isName typeCase.condition = true ∧ ∀ type ∈ typeCase.possibleTypes, isName type = true := by
  have possible {type : String} (listed : type ∈ typeCase.possibleTypes) : isName type = true :=
    schemaReadable.isName_possibleTypes ((exists_case_iff compiled type).mp ⟨typeCase, member, listed⟩).1
  refine ⟨?_, fun type => possible⟩
  obtain ⟨type, listed, ⟨opens, _⟩ | alone⟩ := exists_type_of_case compiled member
  · obtain ⟨condition, found, _⟩ := opens.exists_composite
    exact isName_of_type? schemaReadable found
  · rw [alone]
    exact possible listed

theorem Run.named (fragments : ∀ fragment ∈ c.fragments, IsReadable fragment.selectionSet.items) {stack : List String}
    {conditional : Bool} {s : Collection} (each : IsReadable start)
    (run : c.Run stack root conditional start {} s) : s.Everywhere Named := by
  refine run.everywhere absorbing_named ?_ ?_ (List.Subset.refl _)
  · intro above head inner definition type conditional selected looked simple _
    obtain ⟨⟨_, readable⟩, _⟩ := selected.readable fragments each
    exact ⟨readable.isName_responseName, isName_of_type? schemaReadable (type?_of_fieldType looked).2, nofun⟩
  · intro above head inner definition type conditional stack below selected looked hasFields inside
    obtain ⟨⟨_, readable⟩, _⟩ := selected.readable fragments each
    refine ⟨readable.isName_responseName, isName_of_type? schemaReadable (type?_of_fieldType looked).2, ?_⟩
    exact fun typeCase => named_of_case schemaReadable (shape_of_run inside)

end Named

end Compiler

/-- What is compiled of a document that was read has names of the language, at every depth. -/
theorem Compiled.Has.named {schema : Schema} (schemaReadable : schema.Readable) {document : Document}
    (readable : document.Readable) {options : Options} {compiled : Compiled}
    (done : document.compile schema options = .ok compiled) {field : ResponseField} (has : compiled.Has field) :
    field.Named := by
  have each (definition : Definition) (member : definition ∈ document.definitions) :
      Compiler.IsReadable definition.selections := by
    obtain ⟨depth, below⟩ := (readable definition member).selections
    exact fun selection listed => ⟨depth, below selection listed⟩
  have fragments : ∀ fragment ∈ (document.compiler schema options.mergeSpreads).fragments,
      Compiler.IsReadable fragment.selectionSet.items := by
    intro fragment member
    exact each (.fragment fragment) (Document.mem_fragments.mp (mem_of_mem_distinctBy _ member))
  obtain ⟨_, _, _, ofOperations, ofFragments⟩ := document.exists_leaves done
  rcases has with ⟨operation, member, within⟩ | ⟨fragment, member, within⟩
  · obtain ⟨source, inDocument, root, s, compiles, _⟩ := ofOperations operation member
    have all : s.Everywhere Named := compiles.run.named schemaReadable fragments
      (each (.operation source) (Document.mem_operations.mp inDocument))
    rw [compiles.fields] at within
    exact Everywhere.of_within (all none) within
  · obtain ⟨source, inDocument, type, s, compiles, _⟩ := ofFragments fragment member
    have isFragment := Document.mem_fragments.mp inDocument
    have all : s.Everywhere Named := compiles.run.named schemaReadable fragments (each (.fragment source) isFragment)
    have own : fragment.toField.Named := by
      have ofSource : source.Readable Token.nestingLimit := readable (.fragment source) isFragment
      refine ⟨?_, ?_, ?_⟩
      · change isName fragment.name = true
        rw [compiles.name]
        exact ofSource.isName
      · change isName fragment.condition = true
        rw [compiles.condition]
        exact ofSource.condition
      · change ∀ typeCase ∈ fragment.cases, _
        rw [compiles.cases]
        exact fun typeCase => Compiler.named_of_case schemaReadable (Compiler.shape_of_run compiles.run)
    exact compiles.everywhere absorbing_named own all field within

end QueryTypes
