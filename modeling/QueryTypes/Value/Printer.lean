import QueryTypes.Value
import QueryTypes.Text.Blank

namespace QueryTypes

def spaces (count : Nat) : String := String.ofList (List.replicate count ' ')

namespace Value

def isPlain (c : Char) : Bool := 0x20 ≤ c.toNat && c.toNat ≤ 0xFFFF

/-- One character between quotes. A character that has no short escape and is not plain is written
    by its decimal code, with four figures at least. -/
def escapeChar (c : Char) : List Char :=
  match c with
  | '\r' => ['\\', 'r']
  | '\n' => ['\\', 'n']
  | '\t' => ['\\', 't']
  | '"' => ['\\', '"']
  | '\\' => ['\\', '\\']
  | _ =>
    if isPlain c then [c]
    else
      let digits := Nat.toDigits 10 c.toNat
      '\\' :: 'u' :: (List.replicate (4 - digits.length) '0' ++ digits)

def quote (text : String) : String :=
  String.ofList ('"' :: text.toList.flatMap escapeChar ++ ['"'])

def escapeBlock : List Char → List Char
  | [] => []
  | '"' :: '"' :: '"' :: rest => '\\' :: '"' :: '"' :: '"' :: escapeBlock rest
  | c :: rest => c :: escapeBlock rest

def block (indent : Nat) (text : String) : String :=
  let line (cs : List Char) : String :=
    (if cs.all Text.isBlank then "" else spaces (indent + 2) ++ String.ofList (escapeBlock cs)) ++
      "\n"
  "\"\"\"\n" ++ String.join ((Text.lines text.toList).map line) ++ spaces indent ++ "\"\"\""

/-- A string has several lines if it has a line feed and every character can stand in a block. -/
def stringText (indent : Nat) (text : String) : String :=
  let cs := text.toList
  if cs.contains '\n' && cs.all (fun c => c == '\n' || c == '\r' || c == '\t' || isPlain c) then
    block indent text
  else quote text

mutual
def toText (indent : Nat) : Value → String
  | .var name => "$" ++ name
  | .null => "null"
  | .boolean value => if value then "true" else "false"
  | .int value => toString value
  | .float value => value.toText
  | .string value => stringText indent value
  | .enum name => name
  | .list elements => "[" ++ ", ".intercalate (toTexts indent elements) ++ "]"
  | .object entries => "\x7b" ++ ", ".intercalate (entryTexts indent entries) ++ "\x7d"

def toTexts (indent : Nat) : List Value → List String
  | [] => []
  | value :: rest => toText indent value :: toTexts indent rest

def entryTexts (indent : Nat) : List (String × Value) → List String
  | [] => []
  | (key, value) :: rest => (key ++ ": " ++ toText indent value) :: entryTexts indent rest
end

end Value

end QueryTypes
