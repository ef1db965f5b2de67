import QueryTypes.Rule
import QueryTypes.Value

namespace QueryTypes.Value

/-- A value without brackets. Only a value that is not constant may be a variable. -/
def simple (constant : Bool) : Rule Value := do
  if !constant && (← Rule.nextIs (.mark '$')) then
    Rule.mark '$'
    return .var (← Rule.name)
  else
    Rule.take fun
      | .int value => some (.int value)
      | .float value => some (.float value)
      | .string value => some (.string value)
      | .name "true" => some (.boolean true)
      | .name "false" => some (.boolean false)
      | .name "null" => some .null
      | .name name => some (.enum name)
      | _ => none

def rule (constant : Bool) : Nat → Rule Value
  | 0 => simple constant
  | depth + 1 => do
    if ← Rule.nextIs (.mark '[') then
      Rule.mark '['
      let elements ← Rule.zeroOrMore ']' (rule constant depth)
      Rule.mark ']'
      return .list elements
    else if ← Rule.nextIs (.mark '{') then
      Rule.mark '{'
      let entries ← Rule.zeroOrMore '}' do
        let key ← Rule.name
        Rule.mark ':'
        return (key, ← rule constant depth)
      Rule.mark '}'
      return ofEntries entries
    else simple constant

end QueryTypes.Value
