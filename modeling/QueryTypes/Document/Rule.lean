import QueryTypes.Document
import QueryTypes.TypeRef.Rule
import QueryTypes.Value.Rule

namespace QueryTypes

def Argument.rules : Nat → Rule (List Argument)
  | 0 => return []
  | depth + 1 => do
    if ← Rule.nextIs (.mark '(') then
      Rule.mark '('
      let arguments ← Rule.oneOrMore ')' do
        let name ← Rule.name
        Rule.mark ':'
        return ⟨name, ← Value.rule false depth⟩
      Rule.mark ')'
      return arguments
    else return []

def Directive.rules (depth : Nat) : Rule (List Directive) :=
  Rule.repeatWhile (· == some (.mark '@')) do
    let position ← Rule.position
    Rule.mark '@'
    let name ← Rule.name
    return ⟨position, name, ← Argument.rules depth⟩

namespace Selection

def fieldRule (depth : Nat) (nested : Rule SelectionSet) : Rule Selection := do
  let position ← Rule.position
  let first ← Rule.name
  let other ← Rule.optionally (.mark ':') (do Rule.mark ':'; Rule.name)
  let arguments ← Argument.rules depth
  let directives ← Directive.rules depth
  let set? ← Rule.optionally (.mark '{') nested
  let set := set?.getD ⟨.point position, []⟩
  let head : FieldHead := match other with
    | some name => ⟨position, some first, name, arguments, directives⟩
    | none => ⟨position, none, first, arguments, directives⟩
  return .field head set.span set.items

def inlineRule (depth : Nat) (nested : Rule SelectionSet) (position : Position)
    (condition : Option String) : Rule Selection := do
  let directives ← Directive.rules depth
  let set ← nested
  return .inline ⟨position, condition, directives⟩ set.span set.items

/-- One selection. The word `on` behind the dots always starts a type condition. -/
def rule (depth : Nat) (nested : Rule SelectionSet) : Rule Selection := do
  if ← Rule.nextIs .ellipsis then
    Rule.expect .ellipsis
    let position ← Rule.position
    match ← Rule.peek? with
    | some (.name "on") =>
      Rule.keyword "on"
      let condition ← Rule.name
      inlineRule depth nested position (some condition)
    | some (.name name) =>
      Rule.keyword name
      return .spread ⟨position, name, ← Directive.rules depth⟩
    | _ => inlineRule depth nested position none
  else fieldRule depth nested

end Selection

def SelectionSet.rule : Nat → Rule SelectionSet
  | 0 => Rule.fail
  | depth + 1 => do
    let first ← Rule.position
    Rule.mark '{'
    let items ← Rule.oneOrMore '}' (Selection.rule depth (SelectionSet.rule depth))
    let last ← Rule.position
    Rule.mark '}'
    return ⟨⟨first, last⟩, items⟩

def VariableDefinition.rules : Nat → Rule (List VariableDefinition)
  | 0 => return []
  | depth + 1 => do
    if ← Rule.nextIs (.mark '(') then
      Rule.mark '('
      let parameters ← Rule.oneOrMore ')' do
        let position ← Rule.position
        Rule.mark '$'
        let name ← Rule.name
        Rule.mark ':'
        let type ← TypeRef.rule depth
        let initial ← Rule.optionally (.mark '=') (do Rule.mark '='; Value.rule true depth)
        return ⟨position, name, type, initial⟩
      Rule.mark ')'
      return parameters
    else return []

def Operation.rule (depth : Nat) (kind : OperationKind) : Rule Operation := do
  let position ← Rule.position
  Rule.keyword kind.keyword
  let name ← match ← Rule.peek? with
    | some (.name name) => do Rule.keyword name; pure (some name)
    | _ => pure none
  let parameters ← VariableDefinition.rules depth
  let directives ← Directive.rules depth
  let selectionSet ← SelectionSet.rule depth
  return ⟨position, some ⟨kind, name, parameters, directives⟩, selectionSet⟩

def Fragment.rule (depth : Nat) : Rule Fragment := do
  let position ← Rule.position
  Rule.keyword "fragment"
  let name ← Rule.name
  Rule.keyword "on"
  let condition ← Rule.name
  let directives ← Directive.rules depth
  let selectionSet ← SelectionSet.rule depth
  return ⟨position, name, condition, directives, selectionSet⟩

def Definition.rule (depth : Nat) : Rule Definition := do
  match ← Rule.peek? with
  | some (.mark '{') => do
    let selectionSet ← SelectionSet.rule depth
    return .operation ⟨selectionSet.span.first, none, selectionSet⟩
  | some (.name "query") => return .operation (← Operation.rule depth .query)
  | some (.name "mutation") => return .operation (← Operation.rule depth .mutation)
  | some (.name "subscription") => return .operation (← Operation.rule depth .subscription)
  | some (.name "fragment") => return .fragment (← Fragment.rule depth)
  | _ => Rule.fail

def Document.parse (text : String) : Except Position Document := do
  let definitions ← Rule.parse (Rule.allOf (Definition.rule Token.nestingLimit)) text
  return ⟨definitions⟩

end QueryTypes
