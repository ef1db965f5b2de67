namespace QueryTypes

inductive TypeRef where
  | named (name : String)
  | list (element : TypeRef)
  | nonNull (inner : TypeRef)
  deriving DecidableEq, Repr, Inhabited

namespace TypeRef

def toText : TypeRef → String
  | named name => name
  | list element => "[" ++ element.toText ++ "]"
  | nonNull inner => inner.toText ++ "!"

def baseName : TypeRef → String
  | named name => name
  | list element => element.baseName
  | nonNull inner => inner.baseName

def isNonNull : TypeRef → Bool
  | nonNull _ => true
  | _ => false

def nullable : TypeRef → TypeRef
  | nonNull inner => inner
  | type => type

def listElement? (type : TypeRef) : Option TypeRef :=
  match type.nullable with
  | list element => some element
  | _ => none

def isList (type : TypeRef) : Bool := type.listElement?.isSome

/-- Whether a non-null layer stands directly around another one, at any depth. -/
def hasDoubleNonNull : TypeRef → Bool
  | named _ => false
  | list element => element.hasDoubleNonNull
  | nonNull inner => inner.isNonNull || inner.hasDoubleNonNull

end TypeRef

end QueryTypes
