import QueryTypes.Token
import QueryTypes.Text.Blank

namespace QueryTypes.Token

def splitQuoted : List Char → Option (List Char × List Char)
  | [] => none
  | '"' :: rest => some ([], rest)
  | '\n' :: _ => none
  | '\\' :: c :: rest =>
    if c = '\n' then none else (splitQuoted rest).map fun (body, rest) => ('\\' :: c :: body, rest)
  | c :: rest => (splitQuoted rest).map fun (body, rest) => (c :: body, rest)

def hexDigit? (c : Char) : Option Nat :=
  if c.isDigit then some (c.toNat - '0'.toNat)
  else if 'a' ≤ c ∧ c ≤ 'f' then some (c.toNat - 'a'.toNat + 10)
  else if 'A' ≤ c ∧ c ≤ 'F' then some (c.toNat - 'A'.toNat + 10)
  else none

def hexValue? : List Char → Option Nat
  | [] => none
  | digits => digits.foldl (fun value c => do return 16 * (← value) + (← hexDigit? c)) (some 0)

/-- The character of an escape with four figures. The first of them may be a plus sign. -/
def codePoint? (figures : List Char) : Option Char := do
  let digits := if figures.head? == some '+' then figures.tail else figures
  let value ← hexValue? digits
  if value.isValidChar then some (Char.ofNat value) else none

def unescape : List Char → Option (List Char)
  | [] => some []
  | '\\' :: 'u' :: a :: b :: c :: d :: rest => do
    let first ← codePoint? [a, b, c, d]
    return first :: (← unescape rest)
  | '\\' :: c :: rest => do
    let first ← match c with
      | '"' | '\\' | '/' => some c
      | 'b' => some '\u0010'
      | 'f' => some '\u000C'
      | 'n' => some '\n'
      | 'r' => some '\r'
      | 't' => some '\t'
      | _ => none
    return first :: (← unescape rest)
  | '\\' :: [] => none
  | c :: rest => (unescape rest).map (c :: ·)

/-- What stands between triple quotes, and the text after them. Triple quotes after a backslash do
    not close; `escaped` tells that the character before was one. -/
def splitBlock (escaped : Bool) : List Char → Option (List Char × List Char)
  | [] => none
  | '"' :: '"' :: '"' :: rest =>
    if escaped then
      (splitBlock false rest).map fun (body, rest) => ('"' :: '"' :: '"' :: body, rest)
    else some ([], rest)
  | c :: rest => (splitBlock (c == '\\') rest).map fun (body, rest) => (c :: body, rest)

def indent? (line : List Char) : Option Nat :=
  if line.all Text.isBlank then none else some (line.takeWhile Text.isBlank).length

def commonIndent? (lines : List (List Char)) : Option Nat := (lines.filterMap indent?).min?

def dropIndent (count : Option Nat) (line : List Char) : List Char :=
  match count with
  | none => line
  | some count => if count ≤ line.length then line.drop count else line

def unescapeBlock : List Char → List Char
  | [] => []
  | '\\' :: '"' :: '"' :: '"' :: rest => '"' :: '"' :: '"' :: unescapeBlock rest
  | c :: rest => c :: unescapeBlock rest

def dropBlankEnds (lines : List (List Char)) : List (List Char) :=
  let isEmpty (line : List Char) := line.all Text.isBlank
  ((lines.dropWhile isEmpty).reverse.dropWhile isEmpty).reverse

/-- The value of the text between triple quotes: the indent that all lines but the first have in
    common falls away, and so do blank lines at either end. -/
def blockValue (body : List Char) : List Char :=
  match Text.lines body with
  | [] => []
  | first :: rest =>
    let lines := first :: rest.map (dropIndent (commonIndent? rest))
    Text.joinLines ((dropBlankEnds lines).map unescapeBlock)

end QueryTypes.Token
