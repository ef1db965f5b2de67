import QueryTypes.Token.Lexer

namespace QueryTypes

/-- A rule of the grammar. It reads lexemes from the front and leaves the others. A rule that fails
    gives the lexemes from the first one that could not continue the text. -/
def Rule (α : Type) : Type := List Lexeme → Except (List Lexeme) (α × List Lexeme)

namespace Rule

instance : Monad Rule where
  pure a := fun rest => .ok (a, rest)
  bind rule next := fun rest =>
    match rule rest with
    | .error failed => .error failed
    | .ok (a, rest) => next a rest

def fail {α : Type} : Rule α := fun rest => .error rest

def failAt {α : Type} (lexemes : List Lexeme) : Rule α := fun _ => .error lexemes

def remaining : Rule (List Lexeme) := fun rest => .ok (rest, rest)

def peek? : Rule (Option Token) := fun rest => .ok (rest.head?.map Lexeme.token, rest)

def nextIs (token : Token) : Rule Bool := fun rest =>
  .ok (rest.head?.map Lexeme.token == some token, rest)

/-- The place of the next token. Used in front of a rule that fails where there is none. -/
def position : Rule Position := fun rest => .ok ((rest.head?.map Lexeme.position).getD .start, rest)

def take {α : Type} (meaning : Token → Option α) : Rule α
  | [] => .error []
  | lexeme :: rest =>
    match meaning lexeme.token with
    | some a => .ok (a, rest)
    | none => .error (lexeme :: rest)

def expect (token : Token) : Rule Unit := take fun t => if t = token then some () else none

def mark (c : Char) : Rule Unit := expect (.mark c)

def name : Rule String := take fun
  | .name text => some text
  | _ => none

def keyword (text : String) : Rule Unit := expect (.name text)

def optionally {α : Type} (token : Token) (rule : Rule α) : Rule (Option α) := do
  if ← nextIs token then return some (← rule) else return none

def repeatUpTo {α : Type} (goesOn : Option Token → Bool) (rule : Rule α) : Nat → Rule (List α)
  | 0 => pure []
  | count + 1 => do
    if goesOn (← peek?) then
      let first ← rule
      return first :: (← repeatUpTo goesOn rule count)
    else return []

/-- Reads with `rule` as long as `goesOn` holds for what is next. Every lexeme is read once, so
    their number bounds the repetitions. -/
def repeatWhile {α : Type} (goesOn : Option Token → Bool) (rule : Rule α) : Rule (List α) :=
  fun rest => repeatUpTo goesOn rule rest.length rest

def zeroOrMore {α : Type} (close : Char) (rule : Rule α) : Rule (List α) :=
  repeatWhile (· != some (.mark close)) rule

def oneOrMore {α : Type} (close : Char) (rule : Rule α) : Rule (List α) := do
  let first ← rule
  return first :: (← zeroOrMore close rule)

def allOf {α : Type} (rule : Rule α) : Rule (List α) := do
  let first ← rule
  return first :: (← repeatWhile Option.isSome rule)

def parse {α : Type} (rule : Rule α) (text : String) : Except Position α :=
  let (lexemes, last) := Token.lexemes .start text.toList
  let place (rest : List Lexeme) := (rest.head?.map Lexeme.position).getD last
  match rule lexemes with
  | .error rest => .error (place rest)
  | .ok (a, []) => .ok a
  | .ok (_, rest) => .error (place rest)

end Rule

end QueryTypes
