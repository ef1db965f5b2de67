namespace QueryTypes

structure Position where
  line : Nat
  column : Nat
  deriving DecidableEq, Repr, Inhabited

namespace Position

def start : Position := ⟨1, 1⟩

def right (p : Position) (count : Nat) : Position := ⟨p.line, p.column + count⟩

def nextLine (p : Position) : Position := ⟨p.line + 1, 1⟩

/-- The place after `text`, read from `p` on. Only a line feed ends a line here. -/
def after (p : Position) (text : List Char) : Position :=
  match text.count '\n' with
  | 0 => p.right text.length
  | feeds => ⟨p.line + feeds, (text.reverse.takeWhile (· != '\n')).length + 1⟩

end Position

structure Span where
  first : Position
  last : Position
  deriving DecidableEq, Repr, Inhabited

def Span.point (p : Position) : Span := ⟨p, p⟩

end QueryTypes
