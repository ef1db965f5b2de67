import QueryTypes.Error

namespace QueryTypes

structure Around where
  opening : String
  closing : String
  deriving DecidableEq, Repr, Inhabited

structure TypeStyle where
  list : Around
  nullable : Around
  deriving DecidableEq, Repr, Inhabited

namespace Around

def within (inner outer : Around) : Around :=
  ⟨outer.opening ++ inner.opening, inner.closing ++ outer.closing⟩

def write (around : Around) (text : String) : String := around.opening ++ text ++ around.closing

end Around

namespace TypeStyle

/-- What stands around the name inside a type. Types that are non-null twice are not written. -/
def layers (style : TypeStyle) (nullable : Bool) : TypeRef → Except Error Around
  | .named _ => .ok (if nullable then style.nullable else ⟨"", ""⟩)
  | .list element => do
    let list := (← style.layers true element).within style.list
    return if nullable then list.within style.nullable else list
  | .nonNull (.nonNull inner) => .error (.compiler (.unwritableType (.nonNull (.nonNull inner))))
  | .nonNull inner => style.layers false inner

def around (style : TypeStyle) (type : TypeRef) : Except Error Around := style.layers true type

def write (style : TypeStyle) (type : TypeRef) (leaf : String) : Except Error String := do
  return (← style.around type).write leaf

end TypeStyle

end QueryTypes
