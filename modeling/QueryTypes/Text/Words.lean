namespace QueryTypes.Text

inductive LetterCase where
  | none
  | lower
  | upper
  deriving DecidableEq, Repr

def LetterCase.after (case : LetterCase) (c : Char) : LetterCase :=
  if c.isLower then .lower else if c.isUpper then .upper else case

/-- The words of a text without underscores, of which `word` was read before. A word ends between a
    lower and an upper letter, and in front of the last of several upper letters if a lower one
    follows it. Digits count as the letter before them. -/
def splitWords (case : LetterCase) (word : List Char) : List Char → List (List Char)
  | [] => []
  | [c] => [word ++ [c]]
  | c :: next :: rest =>
    if case.after c = .lower ∧ next.isUpper then
      (word ++ [c]) :: splitWords .none [] (next :: rest)
    else if case = .upper ∧ c.isUpper ∧ next.isLower then
      word :: splitWords .none [c] (next :: rest)
    else splitWords (case.after c) (word ++ [c]) (next :: rest)

def pieces : List Char → List (List Char)
  | [] => [[]]
  | c :: rest =>
    match pieces rest with
    | [] => [[c]]
    | piece :: others => if c.isAlphanum then (c :: piece) :: others else [] :: piece :: others

def words (name : List Char) : List (List Char) := (pieces name).flatMap (splitWords .none [])

def capitalize : List Char → List Char
  | [] => []
  | c :: rest => c.toUpper :: rest.map Char.toLower

end QueryTypes.Text

namespace QueryTypes

def upperCamel (name : String) : String :=
  String.ofList ((Text.words name.toList).flatMap Text.capitalize)

def lowerCamel (name : String) : String :=
  match Text.words name.toList with
  | [] => ""
  | first :: rest => String.ofList (first.map Char.toLower ++ rest.flatMap Text.capitalize)

def upperFirst (name : String) : String :=
  match name.toList with
  | [] => ""
  | c :: rest => String.ofList (c.toUpper :: rest)

end QueryTypes
