import QueryTypes.Document
import QueryTypes.Value.Printer

namespace QueryTypes

def argumentsText (indent : Nat) (arguments : List Argument) : String :=
  if arguments.isEmpty then ""
  else
    let argument (a : Argument) := a.name ++ ": " ++ a.value.toText indent
    "(" ++ ", ".intercalate (arguments.map argument) ++ ")"

def directivesText (indent : Nat) (directives : List Directive) : String :=
  String.join (directives.map fun d => " @" ++ d.name ++ argumentsText indent d.arguments)

def VariableDefinition.toText (definition : VariableDefinition) : String :=
  let initial := match definition.initial with
    | some value => " = " ++ value.toText 0
    | none => ""
  "$" ++ definition.name ++ ": " ++ definition.type.toText ++ initial

namespace Selection

def fieldText (indent : Nat) (head : FieldHead) : String :=
  let label := match head.label with
    | some label => label ++ ": "
    | none => ""
  label ++ head.name ++ argumentsText indent head.arguments ++ directivesText indent head.directives

def inlineText (indent : Nat) (head : InlineHead) : String :=
  let condition := match head.condition with
    | some name => " on " ++ name
    | none => ""
  "..." ++ condition ++ directivesText indent head.directives

mutual
def toText (indent : Nat) : Selection → String
  | .field head _ [] => spaces indent ++ fieldText indent head ++ "\n"
  | .field head _ (first :: rest) =>
    spaces indent ++ fieldText indent head ++ " \x7b\n" ++ toText (indent + 2) first ++
      toTexts (indent + 2) rest ++ spaces indent ++ "\x7d\n"
  | .inline head _ selections =>
    spaces indent ++ inlineText indent head ++ " \x7b\n" ++ toTexts (indent + 2) selections ++
      spaces indent ++ "\x7d\n"
  | .spread s => spaces indent ++ "..." ++ s.name ++ directivesText indent s.directives ++ "\n"

def toTexts (indent : Nat) : List Selection → String
  | [] => ""
  | selection :: rest => toText indent selection ++ toTexts indent rest
end

end Selection

def SelectionSet.toText (set : SelectionSet) : String :=
  "\x7b\n" ++ Selection.toTexts 2 set.items ++ "\x7d\n"

namespace OperationHead

/-- The variables of an operation. A subscription writes them without anything between them, and
    not at all if it has no name. -/
def variablesText (head : OperationHead) : String :=
  let separator := if head.kind = .subscription then "" else ", "
  if head.parameters.isEmpty || (head.kind = .subscription && head.name.isNone) then ""
  else "(" ++ separator.intercalate (head.parameters.map VariableDefinition.toText) ++ ")"

def toText (head : OperationHead) : String :=
  let name := match head.name with
    | some name => " " ++ name
    | none => ""
  head.kind.keyword ++ name ++ head.variablesText ++ directivesText 0 head.directives

end OperationHead

namespace Definition

def rawText : Definition → String
  | .operation o =>
    match o.head with
    | some head => head.toText ++ " " ++ o.selectionSet.toText
    | none => o.selectionSet.toText
  | .fragment f =>
    "fragment " ++ f.name ++ " on " ++ f.condition ++ directivesText 0 f.directives ++ " " ++
      f.selectionSet.toText

def toText (definition : Definition) : String := trimEnd definition.rawText

end Definition

end QueryTypes
