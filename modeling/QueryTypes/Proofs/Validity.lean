import QueryTypes.Compiled
import QueryTypes.Proofs.Ordered
import QueryTypes.Proofs.SchemaTypes
import QueryTypes.Validation

namespace QueryTypes

namespace Selection

mutual
def fieldNames : Selection → List String
  | .field head _ selections => head.name :: fieldNamesAll selections
  | .inline _ _ selections => fieldNamesAll selections
  | .spread _ => []

def fieldNamesAll : List Selection → List String
  | [] => []
  | selection :: rest => fieldNames selection ++ fieldNamesAll rest
end

end Selection

def Definition.selections : Definition → List Selection
  | .operation o => o.selectionSet.items
  | .fragment f => f.selectionSet.items

def Document.fieldNames (document : Document) : List String :=
  document.definitions.flatMap fun definition => Selection.fieldNamesAll definition.selections

def Document.Spreads (document : Document) (outer inner : String) : Prop :=
  ∃ fragment ∈ document.fragments, fragment.name = outer ∧
    inner ∈ Selection.spreadNamesAll fragment.selectionSet.items

namespace Validation

/-- Selections on a type without faults, and without the fields on the schema itself. -/
structure Passes (v : Validation) (above : TypeDefinition) (selections : List Selection) :
    Prop where
  faultless : v.selectionsFaults above selections = []
  noSchema : "__schema" ∉ Selection.fieldNamesAll selections
  noType : "__type" ∉ Selection.fieldNamesAll selections

variable {v : Validation} {above : TypeDefinition}

theorem Passes.head {selection : Selection} {rest : List Selection}
    (accepted : v.Passes above (selection :: rest)) : v.Passes above [selection] := by
  obtain ⟨faultless, noSchema, noType⟩ := accepted
  simp only [selectionsFaults, List.append_eq_nil_iff, Selection.fieldNamesAll, List.mem_append,
    not_or] at faultless noSchema noType
  refine ⟨?_, ?_, ?_⟩
  · simp [selectionsFaults, faultless.1]
  · simp [Selection.fieldNamesAll, noSchema.1]
  · simp [Selection.fieldNamesAll, noType.1]

theorem Passes.tail {selection : Selection} {rest : List Selection}
    (accepted : v.Passes above (selection :: rest)) : v.Passes above rest := by
  obtain ⟨faultless, noSchema, noType⟩ := accepted
  simp only [selectionsFaults, List.append_eq_nil_iff, Selection.fieldNamesAll, List.mem_append,
    not_or] at faultless noSchema noType
  exact ⟨faultless.2, noSchema.2, noType.2⟩

theorem Passes.field {head : FieldHead} {span : Span} {inner : List Selection}
    (accepted : v.Passes above [.field head span inner]) :
    head.name ≠ "__schema" ∧ head.name ≠ "__type" ∧
      ∃ definition, v.schema.field? above head.name = some definition ∧
        ∀ type, v.schema.type? definition.type.baseName = some type →
          (type.isLeaf → inner = []) ∧ (type.isComposite → v.Passes type inner) := by
  obtain ⟨faultless, noSchema, noType⟩ := accepted
  simp only [Selection.fieldNamesAll, Selection.fieldNames, List.append_nil, List.mem_cons,
    not_or] at noSchema noType
  simp only [selectionsFaults, selectionFaults, List.append_nil, List.append_eq_nil_iff] at faultless
  refine ⟨Ne.symm noSchema.1, Ne.symm noType.1, ?_⟩
  obtain ⟨_, faultless⟩ := faultless
  split at faultless
  · cases faultless
  · rename_i definition found
    refine ⟨definition, found, ?_⟩
    intro type known
    simp only [known] at faultless
    split at faultless
    · cases faultless
    · rename_i noSubfields
      split at faultless
      · cases faultless
      · refine ⟨fun leaf => ?_, fun hasFields => ?_⟩
        · simpa [leaf] using noSubfields
        · rw [if_pos hasFields] at faultless
          exact ⟨faultless, noSchema.2, noType.2⟩

theorem overlap_of_spreadFaults {condition : TypeDefinition} {fault : Diagnostic}
    (faultless : v.spreadFaults above condition fault = []) (hasFields : condition.isComposite) :
    v.overlap above condition := by
  unfold spreadFaults at faultless
  split at faultless
  · cases faultless
  · rename_i possible
    simpa [hasFields] using possible

theorem composite_eq_ok {name : String} {position : Position} {type : TypeDefinition}
    (resolved : v.composite name position = .ok type) :
    v.schema.type? name = some type ∧ type.isComposite := by
  unfold composite at resolved
  split at resolved
  · cases resolved
  · rename_i found
    split at resolved
    · rename_i hasFields
      cases resolved
      exact ⟨found, hasFields⟩
    · cases resolved

theorem Passes.inline {head : InlineHead} {span : Span} {inner : List Selection}
    (accepted : v.Passes above [.inline head span inner]) :
    head.condition = none ∧ v.Passes above inner ∨
      ∃ name condition, head.condition = some name ∧ v.schema.type? name = some condition ∧
        condition.isComposite ∧ v.overlap above condition ∧ v.Passes condition inner := by
  obtain ⟨faultless, noSchema, noType⟩ := accepted
  simp only [Selection.fieldNamesAll, Selection.fieldNames, List.append_nil] at noSchema noType
  simp only [selectionsFaults, selectionFaults, List.append_nil] at faultless
  split at faultless
  · rename_i unconditional
    rw [List.append_eq_nil_iff] at faultless
    exact Or.inl ⟨unconditional, faultless.2, noSchema, noType⟩
  · rename_i name conditional
    split at faultless
    · cases faultless
    · rename_i condition resolved
      obtain ⟨found, hasFields⟩ := composite_eq_ok resolved
      rw [List.append_eq_nil_iff] at faultless
      exact Or.inr ⟨name, condition, conditional, found, hasFields,
        overlap_of_spreadFaults faultless.1 hasFields, faultless.2, noSchema, noType⟩

theorem Passes.spread {spread : FragmentSpread} (accepted : v.Passes above [.spread spread]) :
    ∃ name, v.condition? spread.name = some name ∧
      ∀ condition, v.schema.type? name = some condition → condition.isComposite →
        v.overlap above condition := by
  have faultless := accepted.faultless
  simp only [selectionsFaults, selectionFaults, List.append_nil, namedSpreadFaults] at faultless
  split at faultless
  · cases faultless
  · rename_i name found
    refine ⟨name, found, ?_⟩
    intro condition known hasFields
    simp only [known] at faultless
    exact overlap_of_spreadFaults faultless hasFields

theorem exists_operationFaults {operations fragments : List String} {definitions : List Definition}
    (faultless : v.definitionsFaults operations fragments definitions = []) {operation : Operation}
    (member : .operation operation ∈ definitions) : ∃ earlier, v.operationFaults earlier operation = [] := by
  induction definitions generalizing operations fragments with
  | nil => cases member
  | cons definition rest ih =>
    cases definition with
    | operation first =>
      simp only [definitionsFaults, List.append_eq_nil_iff] at faultless
      rcases List.mem_cons.mp member with same | member
      · cases same
        exact ⟨operations, faultless.1⟩
      · exact ih faultless.2 member
    | fragment first =>
      simp only [definitionsFaults, List.append_eq_nil_iff] at faultless
      exact ih faultless.2 (by simpa using member)

theorem operation_of_faultless {operations fragments : List String} {definitions : List Definition}
    (faultless : v.definitionsFaults operations fragments definitions = []) {operation : Operation}
    (member : .operation operation ∈ definitions) :
    ∃ name root, operation.name? = some name ∧ v.schema.root operation.kind = .ok root ∧
      v.selectionsFaults root operation.selectionSet.items = [] := by
  obtain ⟨earlier, own⟩ := exists_operationFaults faultless member
  simp only [operationFaults, List.append_eq_nil_iff] at own
  obtain ⟨⟨named, _⟩, selected⟩ := own
  cases name : operation.name? with
  | none => simp [name] at named
  | some text =>
    cases root : v.schema.root operation.kind with
    | error fault => simp [root] at selected
    | ok type => exact ⟨text, type, rfl, rfl, by simpa [root] using selected⟩

theorem isInput_of_faultless {operations fragments : List String} {definitions : List Definition}
    (faultless : v.definitionsFaults operations fragments definitions = []) {operation : Operation}
    (member : .operation operation ∈ definitions) {definition : VariableDefinition}
    (listed : definition ∈ operation.parameters) :
    (v.schema.type? definition.type.baseName).any TypeDefinition.isInput = true := by
  obtain ⟨earlier, own⟩ := exists_operationFaults faultless member
  simp only [operationFaults, List.append_eq_nil_iff, List.flatMap_eq_nil_iff] at own
  have typed := own.1.2 definition listed
  unfold variableFaults at typed
  split at typed
  · assumption
  · cases typed

theorem fragment_of_faultless {operations fragments : List String} {definitions : List Definition}
    (faultless : v.definitionsFaults operations fragments definitions = []) {fragment : Fragment}
    (member : .fragment fragment ∈ definitions) :
    fragment.name ∉ fragments ∧
      ∃ condition, v.schema.type? fragment.condition = some condition ∧ condition.isComposite ∧
        v.selectionsFaults condition fragment.selectionSet.items = [] := by
  induction definitions generalizing operations fragments with
  | nil => cases member
  | cons definition rest ih =>
    cases definition with
    | operation first =>
      simp only [definitionsFaults, List.append_eq_nil_iff] at faultless
      exact ih faultless.2 (by simpa using member)
    | fragment first =>
      simp only [definitionsFaults, List.append_eq_nil_iff] at faultless
      rcases List.mem_cons.mp member with same | member
      · cases same
        have own := faultless.1
        simp only [fragmentFaults, List.append_eq_nil_iff] at own
        refine ⟨by simpa using own.1, ?_⟩
        have selected := own.2
        split at selected
        · cases selected
        · rename_i condition resolved
          obtain ⟨found, hasFields⟩ := composite_eq_ok resolved
          exact ⟨condition, found, hasFields, selected⟩
      · obtain ⟨fresh, accepted⟩ := ih faultless.2 member
        exact ⟨fun earlier => fresh (List.mem_cons_of_mem _ earlier), accepted⟩

theorem nodup_fragments_of_faultless {operations fragments : List String}
    {definitions : List Definition}
    (faultless : v.definitionsFaults operations fragments definitions = []) :
    ((Document.fragments ⟨definitions⟩).map Fragment.name).Nodup := by
  induction definitions generalizing operations fragments with
  | nil => exact List.nodup_nil
  | cons definition rest ih =>
    cases definition with
    | operation first =>
      simp only [definitionsFaults, List.append_eq_nil_iff] at faultless
      exact ih faultless.2
    | fragment first =>
      simp only [definitionsFaults, List.append_eq_nil_iff] at faultless
      change (first.name :: (Document.fragments ⟨rest⟩).map Fragment.name).Nodup
      refine List.nodup_cons.mpr ⟨?_, ih faultless.2⟩
      intro repeated
      obtain ⟨later, member, same⟩ := List.mem_map.mp repeated
      have listed : Definition.fragment later ∈ rest := by
        obtain ⟨definition, inRest, isFragment⟩ := List.mem_filterMap.mp member
        cases definition <;> cases isFragment
        exact inRest
      exact (fragment_of_faultless faultless.2 listed).1 (by simp [same])

end Validation

namespace Document

variable {document : Document} {schema : Schema} {addsTypename : Bool}

theorem mem_fragments {fragment : Fragment} :
    fragment ∈ document.fragments ↔ .fragment fragment ∈ document.definitions := by
  unfold fragments
  rw [List.mem_filterMap]
  constructor
  · rintro ⟨definition, member, isFragment⟩
    cases definition <;> cases isFragment
    exact member
  · intro member
    exact ⟨_, member, rfl⟩

theorem mem_operations {operation : Operation} :
    operation ∈ document.operations ↔ .operation operation ∈ document.definitions := by
  unfold operations
  rw [List.mem_filterMap]
  constructor
  · rintro ⟨definition, member, isOperation⟩
    cases definition <;> cases isOperation
    exact member
  · intro member
    exact ⟨_, member, rfl⟩

def validation (document : Document) (schema : Schema) (addsTypename : Bool) : Validation :=
  ⟨schema, document.fragments.map fun f => (f.name, f.condition), addsTypename⟩

theorem faultless_of_validate (valid : document.validate schema addsTypename = .ok ()) :
    (document.validation schema addsTypename).definitionsFaults [] [] document.definitions = [] := by
  unfold validate at valid
  split at valid
  · assumption
  · cases valid

theorem nodup_fragments_of_validate (valid : document.validate schema addsTypename = .ok ()) :
    (document.fragments.map Fragment.name).Nodup :=
  Validation.nodup_fragments_of_faultless (faultless_of_validate valid)

end Document

end QueryTypes
