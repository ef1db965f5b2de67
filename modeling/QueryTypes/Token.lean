import QueryTypes.Position
import QueryTypes.Binary64

namespace QueryTypes

inductive Token where
  | mark (c : Char)
  | ellipsis
  | name (text : String)
  | int (value : Int)
  | float (value : Binary64)
  | string (value : String)
  /-- What starts no word, or a word that is not finished or has no value. -/
  | malformed
  deriving DecidableEq, Repr, Inhabited

structure Lexeme where
  position : Position
  token : Token
  deriving DecidableEq, Repr, Inhabited

namespace Token

def isMark (c : Char) : Bool := "()[]\x7b\x7d!$:=@|&".toList.contains c

def isNameStart (c : Char) : Bool := c.isAlpha || c == '_'

def isNameChar (c : Char) : Bool := c.isAlphanum || c == '_'

/-- How many brackets a text may have open at once. -/
def nestingLimit : Nat := 50

end Token

def isName (text : String) : Bool :=
  match text.toList with
  | [] => false
  | c :: rest => Token.isNameStart c && rest.all Token.isNameChar

end QueryTypes
