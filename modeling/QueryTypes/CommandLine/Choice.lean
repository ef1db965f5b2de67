import QueryTypes.Request

namespace QueryTypes.CommandLine

inductive Switch where
  | verbose
  | addTypename
  | customScalars
  | pascalCase
  | preferInterfaces
  deriving DecidableEq, Repr

inductive Setting where
  | schema
  | output
  | target
  | tag
  | scalarPrefix
  | operationIdsPath
  deriving DecidableEq, Repr

inductive Choice where
  | switch (switch : Switch)
  | setting (setting : Setting) (value : String)
  | input (path : String)
  deriving DecidableEq, Repr

namespace Choice

def switch? : String → Option Switch
  | "verbose" => some .verbose
  | "add-typename" => some .addTypename
  | "passthrough-custom-scalars" => some .customScalars
  | "pascal-case" => some .pascalCase
  | "prefer-interfaces" => some .preferInterfaces
  | _ => none

def setting? : String → Option Setting
  | "schema" => some .schema
  | "output" => some .output
  | "target" => some .target
  | "tag-name" => some .tag
  | "custom-scalars-prefix" => some .scalarPrefix
  | "operation-ids-path" => some .operationIdsPath
  | _ => none

def isNamed (word : String) : Bool := word.startsWith "-" && word != "-"

def splitLong (word : List Char) : String × Option String :=
  match word.span (· != '=') with
  | (name, []) => (String.ofList name, none)
  | (name, _ :: value) => (String.ofList name, some (String.ofList value))

def ofLetters (letters : List Char) : Option (List Choice) :=
  letters.mapM fun c => if c = 'v' then some (switch .verbose) else none

/-- The choices in the words after the name of a command. The value of a setting stands after an
    equals sign or in the next word. After two dashes all words are inputs. -/
def readAll : List String → Option (List Choice)
  | [] => some []
  | word :: rest =>
    match word.toList with
    | ['-', '-'] => some (rest.map input)
    | '-' :: '-' :: long =>
      match splitLong long with
      | (name, some value) => do
        let s ← setting? name
        return setting s value :: (← readAll rest)
      | (name, none) =>
        match switch? name with
        | some s => do return switch s :: (← readAll rest)
        | none =>
          match setting? name, rest with
          | some s, value :: rest =>
            if isNamed value then none else do return setting s value :: (← readAll rest)
          | _, _ => none
    | '-' :: c :: letters => do return (← ofLetters (c :: letters)) ++ (← readAll rest)
    | _ => do return input word :: (← readAll rest)

/-- Whether two choices cannot stand together. Only schemas and inputs may be repeated. -/
def clash : Choice → Choice → Bool
  | switch a, switch b => a == b
  | setting a _, setting b _ => a == b && a != .schema
  | _, _ => false

def isEmptyPath : Choice → Bool
  | input path => path == ""
  | setting .schema path | setting .output path | setting .operationIdsPath path => path == ""
  | _ => false

def value? (choices : List Choice) (wanted : Setting) : Option String :=
  choices.findSome? fun
    | setting s value => if s = wanted then some value else none
    | _ => none

def schemas (choices : List Choice) : List String :=
  choices.filterMap fun
    | setting .schema path => some path
    | _ => none

def inputs (choices : List Choice) : List String :=
  choices.filterMap fun
    | input path => some path
    | _ => none

def consistent (choices : List Choice) : Bool :=
  decide (choices.Pairwise fun a b => clash a b = false) && !choices.any isEmptyPath &&
    !(schemas choices).isEmpty &&
    ((value? choices .scalarPrefix).isNone || choices.contains (switch .customScalars))

def request? (choices : List Choice) : Option Request := do
  guard (consistent choices)
  let target ← match value? choices .target with
    | some name => (Target.ofName name).toOption
    | none => some .json
  let scalars := (value? choices .scalarPrefix).getD ""
  let ids := value? choices .operationIdsPath
  return {
    schemas := schemas choices
    inputs := inputs choices
    output := value? choices .output
    target := target
    tag := (value? choices .tag).getD "gql"
    options := {
      addTypename := choices.contains (switch .addTypename)
      customScalars :=
        if choices.contains (switch .customScalars) then some scalars else none
      pascalCase := choices.contains (switch .pascalCase)
      preferInterfaces := choices.contains (switch .preferInterfaces)
      operationIds := ids.isSome
      operationIdsPath := ids } }

end Choice

end QueryTypes.CommandLine
