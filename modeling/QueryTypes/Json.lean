import QueryTypes.Value.Printer

namespace QueryTypes

/-- A JSON text without numbers. Objects keep the order of their entries. -/
inductive Json where
  | boolean (value : Bool)
  | string (text : String)
  | array (elements : List Json)
  | object (entries : List (String × Json))
  deriving Repr, Inhabited

namespace Json

def hexFigures (value : Nat) : List Char :=
  [Nat.digitChar (value / 4096 % 16), Nat.digitChar (value / 256 % 16),
    Nat.digitChar (value / 16 % 16), Nat.digitChar (value % 16)]

def escapeChar (c : Char) : List Char :=
  match c with
  | '"' => ['\\', '"']
  | '\\' => ['\\', '\\']
  | '\n' => ['\\', 'n']
  | '\r' => ['\\', 'r']
  | '\t' => ['\\', 't']
  | '\x08' => ['\\', 'b']
  | '\x0c' => ['\\', 'f']
  | _ => if c.toNat < 0x20 then '\\' :: 'u' :: hexFigures c.toNat else [c]

def quote (text : String) : String :=
  String.ofList ('"' :: text.toList.flatMap escapeChar ++ ['"'])

def enclose (opening closing : String) (indent : Nat) (items : List String) : String :=
  if items.isEmpty then opening ++ closing
  else
    opening ++ "\n" ++ ",\n".intercalate (items.map (spaces (indent + 2) ++ ·)) ++ "\n" ++
      spaces indent ++ closing

mutual
def pretty (indent : Nat) : Json → String
  | .boolean value => if value then "true" else "false"
  | .string text => quote text
  | .array elements => enclose "[" "]" indent (prettyList (indent + 2) elements)
  | .object entries => enclose "\x7b" "\x7d" indent (prettyEntries (indent + 2) entries)

def prettyList (indent : Nat) : List Json → List String
  | [] => []
  | element :: rest => pretty indent element :: prettyList indent rest

def prettyEntries (indent : Nat) : List (String × Json) → List String
  | [] => []
  | (key, value) :: rest =>
    (quote key ++ ": " ++ pretty indent value) :: prettyEntries indent rest
end

def toText (json : Json) : String := json.pretty 0

def textEntry? (key : String) (text : Option String) : List (String × Json) :=
  match text with
  | some text => [(key, .string text)]
  | none => []

def listEntry? (key : String) (elements : List Json) : List (String × Json) :=
  if elements.isEmpty then [] else [(key, .array elements)]

def strings (texts : List String) : Json := .array (texts.map .string)

end Json

end QueryTypes
