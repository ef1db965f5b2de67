namespace QueryTypes.Text

/-- Characters with the Unicode property White_Space. -/
def isBlank (c : Char) : Bool :=
  let n := c.toNat
  (0x9 ≤ n && n ≤ 0xD) || n == 0x20 || n == 0x85 || n == 0xA0 || n == 0x1680 ||
    (0x2000 ≤ n && n ≤ 0x200A) || n == 0x2028 || n == 0x2029 || n == 0x202F || n == 0x205F ||
    n == 0x3000

def trimStart (text : List Char) : List Char := text.dropWhile isBlank

def trimEnd (text : List Char) : List Char := (text.reverse.dropWhile isBlank).reverse

def trim (text : List Char) : List Char := trimEnd (trimStart text)

/-- The lines of a text. A line ends before a line feed, or before a carriage return and a line
    feed; a text that ends with a line feed has no further empty line. -/
def lines : List Char → List (List Char)
  | [] => []
  | '\n' :: text => [] :: lines text
  | '\r' :: '\n' :: text => [] :: lines text
  | c :: text =>
    match lines text with
    | [] => [[c]]
    | line :: rest => (c :: line) :: rest

def joinLines : List (List Char) → List Char
  | [] => []
  | [line] => line
  | line :: rest => line ++ '\n' :: joinLines rest

end QueryTypes.Text

namespace QueryTypes

def trimEnd (text : String) : String := String.ofList (Text.trimEnd text.toList)

def trim (text : String) : String := String.ofList (Text.trim text.toList)

/-- The lines of a text, without their ends. -/
def lines (text : String) : List String := (Text.lines text.toList).map String.ofList

def firstLine (text : String) : String := (lines text).headD ""

end QueryTypes
