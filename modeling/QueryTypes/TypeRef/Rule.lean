import QueryTypes.Rule
import QueryTypes.TypeRef

namespace QueryTypes.TypeRef

def nonNullRule (type : TypeRef) : Rule TypeRef := do
  if ← Rule.nextIs (.mark '!') then
    Rule.mark '!'
    return nonNull type
  else return type

def rule : Nat → Rule TypeRef
  | 0 => do nonNullRule (named (← Rule.name))
  | depth + 1 => do
    if ← Rule.nextIs (.mark '[') then
      Rule.mark '['
      let element ← rule depth
      Rule.mark ']'
      nonNullRule (list element)
    else nonNullRule (named (← Rule.name))

end QueryTypes.TypeRef
