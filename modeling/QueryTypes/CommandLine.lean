import QueryTypes.CommandLine.Choice
import QueryTypes.Text.Blank
import QueryTypes.Text.Visible

namespace QueryTypes.CommandLine

inductive Command where
  | version
  | generate (verbose : Bool) (request : Request)
  deriving DecidableEq, Repr

namespace Command

def ofLetters (verbose : Bool) : List Char → Option (Option Bool)
  | [] => some (some verbose)
  | 'V' :: _ => some none
  | 'v' :: rest => if verbose then none else ofLetters true rest
  | _ => none

def readFrom (verbose : Bool) : List String → Option Command
  | [] => none
  | "generate" :: rest => do
    let choices ← Choice.readAll rest
    let request ← Choice.request? choices
    return generate (verbose || choices.contains (.switch .verbose)) request
  | "--version" :: _ => some version
  | "--verbose" :: rest => if verbose then none else readFrom true rest
  | word :: rest =>
    match word.toList with
    | '-' :: c :: letters =>
      match ofLetters verbose (c :: letters) with
      | some (some verbose) => readFrom verbose rest
      | some none => some version
      | none => none
    | _ => none

def read (words : List String) : Option Command := readFrom false words

end Command

def isLogLevel (text : String) : Bool :=
  let digits := if text.toList.head? == some '+' then text.toList.tail else text.toList
  let number := digits.foldl (fun n c => 10 * n + (c.toNat - '0'.toNat)) 0
  let word := String.ofList (text.toList.map Char.toLower)
  ["error", "warn", "info", "debug", "trace"].contains word ||
    (digits.all Char.isDigit && 1 ≤ number && number ≤ 5)

/-- What is said, in one line, about a level that is not known. The level is not looked at when being
    verbose. -/
def logLevelWarning (verbose : Bool) (level : Option String) : Option String :=
  let level := trim (level.getD "")
  if verbose || level = "" || isLogLevel level then none
  else some (firstLine ("ignoring unknown `LOG_LEVEL` value `" ++ visible level ++ "`"))

structure Report where
  exitCode : Nat
  world : World
  complaint : Option String := none
  warnings : List String := []

def versionText : String := "graphql-typegen 0.1.0\n"

def usageText : String :=
  "Usage: graphql-typegen generate [OPTIONS] --schema <PATH> [INPUT]..."

def failureText (e : Error) : String := "code generation failed: " ++ e.message

def run (words : List String) (level : Option String) (world : World) : Report :=
  match Command.read words with
  | none => { exitCode := 2, world := world }
  | some .version =>
    { exitCode := 0, world := { world with console := world.console ++ versionText } }
  | some (.generate verbose request) =>
    let warnings := (logLevelWarning verbose level).toList
    let outcome := request.run world
    match outcome.result with
    | .ok () => { exitCode := 0, world := outcome.world, warnings := warnings }
    | .error e =>
      { exitCode := 1, world := outcome.world, complaint := some (failureText e)
        warnings := warnings }

end QueryTypes.CommandLine
