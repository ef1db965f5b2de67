import QueryTypes.Document.Rule
import QueryTypes.TypeSystem

namespace QueryTypes

def descriptionRule : Rule (Option String) := do
  match ← Rule.peek? with
  | some (.string text) => do Rule.expect (.string text); return some text
  | _ => return none

def InputValue.rule (depth : Nat) : Rule InputValue := do
  let description ← descriptionRule
  let name ← Rule.name
  Rule.mark ':'
  let type ← TypeRef.rule depth
  let initial ← Rule.optionally (.mark '=') (do Rule.mark '='; Value.rule true depth)
  let _ ← Directive.rules depth
  return ⟨name, description, type, initial.isSome⟩

def Rule.enclosed {α : Type} (opening closing : Char) (rule : Nat → Rule α) : Nat → Rule (List α)
  | 0 => return []
  | depth + 1 => do
    if ← Rule.nextIs (.mark opening) then
      Rule.mark opening
      let items ← Rule.oneOrMore closing (rule depth)
      Rule.mark closing
      return items
    else return []

def FieldDefinition.rule (depth : Nat) : Rule FieldDefinition := do
  let description ← descriptionRule
  let name ← Rule.name
  let arguments ← Rule.enclosed '(' ')' InputValue.rule depth
  Rule.mark ':'
  let type ← TypeRef.rule depth
  let _ ← Directive.rules depth
  return ⟨name, description, arguments, type⟩

def EnumValue.rule (depth : Nat) : Rule EnumValue := do
  let description ← descriptionRule
  let name ← Rule.name
  let _ ← Directive.rules depth
  return ⟨name, description⟩

def Rule.separatedNames (separator : Char) : Rule (List String) := do
  let _ ← Rule.optionally (.mark separator) (Rule.mark separator)
  let first ← Rule.name
  let rest ← Rule.repeatWhile (· == some (.mark separator)) do
    Rule.mark separator
    Rule.name
  return first :: rest

def interfacesRule : Rule (List String) := do
  if ← Rule.nextIs (.name "implements") then
    Rule.keyword "implements"
    Rule.separatedNames '&'
  else return []

/-- A type definition without its description. The flag tells whether anything stands behind the
    name that an extension may consist of. What an interface implements is not kept. -/
def TypeBody.rule (depth : Nat) : Rule (String × TypeBody × Bool) := do
  let kind ← Rule.take fun
    | .name text => if ["scalar", "type", "interface", "union", "enum", "input"].contains text
        then some text else none
    | _ => none
  let name ← Rule.name
  match kind with
  | "scalar" =>
    let directives ← Directive.rules depth
    return (name, .scalar, !directives.isEmpty)
  | "type" =>
    let interfaces ← interfacesRule
    let directives ← Directive.rules depth
    let fields ← Rule.enclosed '{' '}' FieldDefinition.rule depth
    return (name, .object interfaces fields,
      !interfaces.isEmpty || !directives.isEmpty || !fields.isEmpty)
  | "interface" =>
    let _ ← interfacesRule
    let directives ← Directive.rules depth
    let fields ← Rule.enclosed '{' '}' FieldDefinition.rule depth
    return (name, .interface fields, !directives.isEmpty || !fields.isEmpty)
  | "union" =>
    let directives ← Directive.rules depth
    let members ← Rule.optionally (.mark '=') (do Rule.mark '='; Rule.separatedNames '|')
    let members := members.getD []
    return (name, .union members, !directives.isEmpty || !members.isEmpty)
  | "enum" =>
    let directives ← Directive.rules depth
    let values ← Rule.enclosed '{' '}' EnumValue.rule depth
    return (name, .enum values, !directives.isEmpty || !values.isEmpty)
  | _ =>
    let directives ← Directive.rules depth
    let fields ← Rule.enclosed '{' '}' InputValue.rule depth
    return (name, .input fields, !directives.isEmpty || !fields.isEmpty)

def directiveLocations : List String :=
  ["QUERY", "MUTATION", "SUBSCRIPTION", "FIELD", "FRAGMENT_DEFINITION", "FRAGMENT_SPREAD",
    "INLINE_FRAGMENT", "SCHEMA", "SCALAR", "OBJECT", "FIELD_DEFINITION", "ARGUMENT_DEFINITION",
    "INTERFACE", "UNION", "ENUM", "ENUM_VALUE", "INPUT_OBJECT", "INPUT_FIELD_DEFINITION",
    "VARIABLE_DEFINITION"]

def directiveLocationRule : Rule Unit := Rule.take fun
  | .name text => if directiveLocations.contains text then some () else none
  | _ => none

def directiveDefinitionRule (depth : Nat) : Rule Unit := do
  Rule.keyword "directive"
  Rule.mark '@'
  let _ ← Rule.name
  let _ ← Rule.enclosed '(' ')' InputValue.rule depth
  let _ ← Rule.optionally (.name "repeatable") (Rule.keyword "repeatable")
  Rule.keyword "on"
  let leading ← Rule.optionally (.mark '|') (Rule.mark '|')
  let named := match ← Rule.peek? with
    | some (.name _) => true
    | _ => false
  if leading.isSome || named then
    directiveLocationRule
    let _ ← Rule.repeatWhile (· == some (.mark '|')) do
      Rule.mark '|'
      directiveLocationRule

def RootNames.add? (names : RootNames) (kind type : String) : Option RootNames :=
  match kind with
  | "query" => if names.query.isSome then none else some { names with query := type }
  | "mutation" => if names.mutation.isSome then none else some { names with mutation := type }
  | "subscription" =>
    if names.subscription.isSome then none else some { names with subscription := type }
  | _ => none

/-- A schema definition. Wrong root names are a fault of its keyword. -/
def RootNames.rule (depth : Nat) : Rule RootNames := do
  let place ← Rule.remaining
  Rule.keyword "schema"
  let _ ← Directive.rules depth
  Rule.mark '{'
  let entries ← Rule.zeroOrMore '}' do
    let kind ← Rule.name
    Rule.mark ':'
    return (kind, ← Rule.name)
  Rule.mark '}'
  match entries.foldlM (fun names (kind, type) => names.add? kind type) ⟨none, none, none⟩ with
  | some names => return names
  | none => Rule.failAt place

/-- An extension. One that adds nothing is a fault of the keyword behind `extend`. -/
def TypeExtension.rule (depth : Nat) : Rule TypeExtension := do
  Rule.keyword "extend"
  let place ← Rule.remaining
  let (name, body, adds) ← TypeBody.rule depth
  if adds then return ⟨name, body⟩ else Rule.failAt place

def SchemaItem.rule (depth : Nat) : Rule SchemaItem := do
  match ← Rule.peek? with
  | some (.name "schema") => return .roots (← RootNames.rule depth)
  | some (.name "extend") => return .extension (← TypeExtension.rule depth)
  | _ => do
    let description ← descriptionRule
    if ← Rule.nextIs (.name "directive") then
      directiveDefinitionRule depth
      return .directive
    else
      let (name, body, _) ← TypeBody.rule depth
      return .type ⟨name, description, body⟩

def SchemaItem.parse (text : String) : Except Position (List SchemaItem) :=
  Rule.parse (Rule.allOf (SchemaItem.rule Token.nestingLimit)) text

end QueryTypes
