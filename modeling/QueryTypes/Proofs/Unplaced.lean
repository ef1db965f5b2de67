import QueryTypes.Proofs.Collecting
import QueryTypes.Compiled

namespace QueryTypes

def Directive.unplaced (directive : Directive) : Directive := { directive with position := .start }

def FieldHead.unplaced (head : FieldHead) : FieldHead :=
  { head with position := .start, directives := head.directives.map Directive.unplaced }

def InlineHead.unplaced (head : InlineHead) : InlineHead :=
  { head with position := .start, directives := head.directives.map Directive.unplaced }

def FragmentSpread.unplaced (spread : FragmentSpread) : FragmentSpread :=
  { spread with position := .start, directives := spread.directives.map Directive.unplaced }

namespace Selection

mutual
def unplaced : Selection → Selection
  | .field head _ selections => .field head.unplaced (.point .start) (unplacedAll selections)
  | .inline head _ selections => .inline head.unplaced (.point .start) (unplacedAll selections)
  | .spread named => .spread named.unplaced

def unplacedAll : List Selection → List Selection
  | [] => []
  | selection :: rest => unplaced selection :: unplacedAll rest
end

end Selection

def SelectionSet.unplaced (set : SelectionSet) : SelectionSet :=
  ⟨.point .start, Selection.unplacedAll set.items⟩

def VariableDefinition.unplaced (definition : VariableDefinition) : VariableDefinition :=
  { definition with position := .start }

def OperationHead.unplaced (head : OperationHead) : OperationHead :=
  { head with
    parameters := head.parameters.map VariableDefinition.unplaced
    directives := head.directives.map Directive.unplaced }

def Operation.unplaced (operation : Operation) : Operation :=
  ⟨.start, operation.head.map OperationHead.unplaced, operation.selectionSet.unplaced⟩

def Fragment.unplaced (fragment : Fragment) : Fragment :=
  { fragment with
    position := .start
    directives := fragment.directives.map Directive.unplaced
    selectionSet := fragment.selectionSet.unplaced }

section Texts

theorem directivesText_unplaced (indent : Nat) (directives : List Directive) :
    directivesText indent (directives.map Directive.unplaced) = directivesText indent directives := by
  unfold directivesText
  rw [List.map_map]
  rfl

namespace Selection

theorem fieldText_unplaced (indent : Nat) (head : FieldHead) :
    fieldText indent head.unplaced = fieldText indent head := by
  simp only [fieldText, FieldHead.unplaced, directivesText_unplaced]

theorem inlineText_unplaced (indent : Nat) (head : InlineHead) :
    inlineText indent head.unplaced = inlineText indent head := by
  simp only [inlineText, InlineHead.unplaced, directivesText_unplaced]

mutual
theorem toText_unplaced (indent : Nat) :
    (selection : Selection) → toText indent selection.unplaced = toText indent selection
  | .field head span [] => by
    rw [unplaced, unplacedAll, toText, toText, fieldText_unplaced]
  | .field head span (first :: rest) => by
    rw [unplaced, unplacedAll, toText, toText, fieldText_unplaced, toText_unplaced _ first,
      toTexts_unplaced _ rest]
  | .inline head span selections => by
    rw [unplaced, toText, toText, inlineText_unplaced, toTexts_unplaced _ selections]
  | .spread named => by
    rw [unplaced, toText, toText]
    simp only [FragmentSpread.unplaced, directivesText_unplaced]

theorem toTexts_unplaced (indent : Nat) :
    (selections : List Selection) → toTexts indent (unplacedAll selections) = toTexts indent selections
  | [] => by rw [unplacedAll]
  | selection :: rest => by
    rw [unplacedAll, toTexts, toTexts, toText_unplaced indent selection, toTexts_unplaced indent rest]
end

mutual
theorem spreadNames_unplaced : (selection : Selection) → selection.unplaced.spreadNames = selection.spreadNames
  | .field head span selections => by
    rw [unplaced, spreadNames, spreadNames, spreadNamesAll_unplacedAll selections]
  | .inline head span selections => by
    rw [unplaced, spreadNames, spreadNames, spreadNamesAll_unplacedAll selections]
  | .spread named => by
    rw [unplaced, spreadNames, spreadNames]
    rfl

theorem spreadNamesAll_unplacedAll :
    (selections : List Selection) → spreadNamesAll (unplacedAll selections) = spreadNamesAll selections
  | [] => by rw [unplacedAll]
  | selection :: rest => by
    rw [unplacedAll, spreadNamesAll, spreadNamesAll, spreadNames_unplaced selection,
      spreadNamesAll_unplacedAll rest]
end

end Selection

theorem SelectionSet.toText_unplaced (set : SelectionSet) : set.unplaced.toText = set.toText := by
  unfold SelectionSet.toText
  rw [SelectionSet.unplaced, Selection.toTexts_unplaced]

theorem OperationHead.toText_unplaced (head : OperationHead) : head.unplaced.toText = head.toText := by
  have parameters : head.unplaced.variablesText = head.variablesText := by
    simp only [variablesText, OperationHead.unplaced, List.isEmpty_map, List.map_map]
    rfl
  unfold OperationHead.toText
  rw [parameters]
  simp only [OperationHead.unplaced, directivesText_unplaced]

theorem Definition.toText_unplaced_operation (operation : Operation) :
    (Definition.operation operation.unplaced).toText = (Definition.operation operation).toText := by
  unfold Definition.toText rawText
  cases named : operation.head with
  | none => simp only [Operation.unplaced, named, Option.map_none, SelectionSet.toText_unplaced]
  | some head =>
    simp only [Operation.unplaced, named, Option.map_some, SelectionSet.toText_unplaced,
      OperationHead.toText_unplaced]

theorem Definition.toText_unplaced_fragment (fragment : Fragment) :
    (Definition.fragment fragment.unplaced).toText = (Definition.fragment fragment).toText := by
  unfold Definition.toText rawText
  simp only [Fragment.unplaced, directivesText_unplaced, SelectionSet.toText_unplaced]

end Texts

namespace Operation

@[simp] theorem name?_unplaced (operation : Operation) : operation.unplaced.name? = operation.name? := by
  cases head : operation.head <;> simp [name?, unplaced, head, OperationHead.unplaced]

@[simp] theorem kind_unplaced (operation : Operation) : operation.unplaced.kind = operation.kind := by
  cases head : operation.head <;> simp [kind, unplaced, head, OperationHead.unplaced]

theorem parameters_unplaced (operation : Operation) :
    operation.unplaced.parameters = operation.parameters.map VariableDefinition.unplaced := by
  cases head : operation.head <;> simp [parameters, unplaced, head, OperationHead.unplaced]

end Operation

theorem isConditional_unplaced (directives : List Directive) :
    isConditional (directives.map Directive.unplaced) = isConditional directives := by
  unfold isConditional
  rw [List.any_map]
  rfl

end QueryTypes
