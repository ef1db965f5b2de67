namespace QueryTypes.Text

def isTerminalControl (c : Char) : Bool :=
  let n := c.toNat
  n == 0x7 || n == 0x8 || n == 0xC || n == 0x1B || n == 0x7F || (0x80 ≤ n && n ≤ 0x9F)

/-- A character as it is shown in a message: its number, if a terminal acts on it, with two figures
    below U+0080 and in braces from there on. -/
def visible (c : Char) : List Char :=
  let figures := Nat.toDigits 16 c.toNat
  if !isTerminalControl c then [c]
  else if c.toNat < 0x10 then '\\' :: 'x' :: '0' :: figures
  else if c.toNat < 0x80 then '\\' :: 'x' :: figures
  else '\\' :: 'u' :: '\x7b' :: figures ++ ['\x7d']

end QueryTypes.Text

namespace QueryTypes

/-- A text with nothing in it that a terminal acts on. -/
def visible (text : String) : String := String.ofList (text.toList.flatMap Text.visible)

end QueryTypes
