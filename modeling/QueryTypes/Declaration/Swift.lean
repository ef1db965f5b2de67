import QueryTypes.Declaration
import QueryTypes.Text.Words

namespace QueryTypes.Swift

def style : TypeStyle := ⟨⟨"[", "]"⟩, ⟨"", "?"⟩⟩

def keywords : List String :=
  ["associatedtype", "class", "deinit", "enum", "extension", "fileprivate", "func", "import",
    "init", "inout", "internal", "let", "open", "operator", "private", "protocol", "public",
    "rethrows", "static", "struct", "subscript", "typealias", "var", "break", "case", "continue",
    "default", "defer", "do", "else", "fallthrough", "for", "guard", "if", "in", "repeat",
    "return", "switch", "where", "while", "as", "catch", "false", "is", "nil", "super", "self",
    "Self", "throw", "throws", "true", "try"]

def identifier (name : String) : String :=
  if keywords.contains name then "`" ++ name ++ "`" else name

def literal (text : String) : String :=
  let escape (c : Char) : List Char := if c = '\\' ∨ c = '"' then ['\\', c] else [c]
  String.ofList ('"' :: text.toList.flatMap escape ++ ['"'])

/-- The name of the type nested for a field: without underscores in front, with a capital. -/
def structName (responseName : String) : String :=
  upperFirst (String.ofList (responseName.toList.dropWhile (· == '_')))

structure Property where
  comment : Option String
  name : String
  key : String
  type : String
  isList : Bool
  deriving DecidableEq, Repr, Inhabited

structure Parameter where
  name : String
  key : String
  type : String
  isOptional : Bool
  deriving DecidableEq, Repr, Inhabited

/-- One of the shapes of a field: the case of the enum, its type, and the type names it is for. -/
structure Variant where
  caseName : String
  structName : String
  typenames : List String
  deriving DecidableEq, Repr, Inhabited

/-- A branch of a switch over type names. Without labels it is the default. -/
structure Arm where
  labels : Option (List String)
  variant : Variant
  deriving DecidableEq, Repr, Inhabited

inductive Nested where
  | struct (name : String) (properties : List Property) (nested : List Nested)
  | choice (name : String) (variants : List Variant) (nested : List Nested)
  deriving Repr, Inhabited

/-- The branches that decode variants: one for each that has type names, and the last as default. -/
def arms : List Variant → List Arm
  | [] => []
  | [last] => [⟨none, last⟩]
  | variant :: rest =>
    if variant.typenames.isEmpty then arms rest else ⟨some variant.typenames, variant⟩ :: arms rest

def scalar : String → Option String
  | "String" => some "String"
  | "Int" => some "Int"
  | "Float" => some "Double"
  | "Boolean" => some "Bool"
  | "ID" => some "GraphQLID"
  | _ => none

def leafName (e : Emission) (name : String) : String :=
  match (e.schema.type? name).map TypeDefinition.body with
  | none | some .scalar => e.scalarName scalar "String" name
  | some _ => name

def property (e : Emission) (field : ResponseField) : Except Error Property := do
  let leaf := if e.isComposite field then structName field.responseName
    else leafName e field.type.baseName
  return { comment := if field.isTypename then none else field.description.map trim
           name := identifier field.responseName
           key := field.responseName
           type := ← style.write field.type leaf
           isList := field.type.isList }

def parameter (e : Emission) (name : String) (type : TypeRef) : Except Error Parameter := do
  return ⟨identifier name, name, ← style.write type (leafName e type.baseName), !type.isNonNull⟩

def variant (e : Emission) (field : ResponseField) (set : PropertySet) : Variant :=
  let name := upperFirst (field.setName set)
  ⟨identifier ("as" ++ name), "As" ++ name, field.typenames e.schema set⟩

mutual
def nested (e : Emission) : List ResponseField → Except Error (List Nested)
  | [] => .ok []
  | field :: rest => do
    let own ← if e.isComposite field then do pure [← nestedType e field] else pure []
    return own ++ (← nested e rest)

def nestedType (e : Emission) : ResponseField → Except Error Nested
  | ⟨responseName, fieldName, type, description, isConditional, fields, spreads, cases⟩ => do
    let field : ResponseField :=
      ⟨responseName, fieldName, type, description, isConditional, fields, spreads, cases⟩
    let name := structName responseName
    match field.propertySets e.schema with
    | [] => return .struct name (← fields.mapM (property e)) (← nested e fields)
    | sets =>
      let inCases ← caseTypes e cases
      let others ← if sets.any (·.condition.isNone) then do
          let name := "As" ++ upperFirst type.baseName
          pure [Nested.struct name (← fields.mapM (property e)) (← nested e fields)]
        else pure []
      return .choice name (sets.map (variant e field)) (inCases ++ others)

def caseTypes (e : Emission) : List (TypeCase ResponseField) → Except Error (List Nested)
  | [] => .ok []
  | typeCase :: rest => do
    let own ← caseType e typeCase
    return own :: (← caseTypes e rest)

def caseType (e : Emission) : TypeCase ResponseField → Except Error Nested
  | ⟨condition, _, fields, _⟩ => do
    return .struct ("As" ++ upperFirst condition) (← fields.mapM (property e)) (← nested e fields)
end

inductive Item where
  | operation (name : String) (kind : OperationKind) (text : List String)
      (parameters : List Parameter) (data : Nested)
  | enum (name : String) (comment : Option String) (values : List EnumValue)
  | input (name : String) (parameters : List Parameter)
  deriving Repr, Inhabited

def operationItem (e : Emission) (operation : CompiledOperation) : Except Error Item := do
  let parameters ← operation.parameters.mapM fun v => parameter e v.name v.type
  let data := Nested.struct "Data" (← operation.fields.mapM (property e))
    (← nested e operation.fields)
  return .operation (upperFirst operation.name ++ operation.kind.suffix) operation.kind
    (lines operation.sourceWithFragments) parameters data

def enumItem (type : TypeDefinition) : Item :=
  .enum type.name (type.description.map trim) type.values

def inputItem (e : Emission) (type : TypeDefinition) : Except Error Item := do
  return .input type.name (← type.inputFields.mapM fun field => parameter e field.name field.type)

def writeComment (w : Writer) (comment : Option String) : Writer :=
  w.onNewlines (comment.toList.map ("/// " ++ ·))

def writeProperty (w : Writer) (property : Property) : Writer :=
  (writeComment w property.comment).onNewline
    ("public let " ++ property.name ++ ": " ++ property.type)

def writeDecoding (w : Writer) (property : Property) : Writer :=
  let accessor := if property.isList then "list" else "value"
  w.onNewline (property.name ++ " = try map." ++ accessor ++ "(forKey: \"" ++ property.key ++ "\")")

def writeArm (w : Writer) (arm : Arm) : Writer :=
  let label := match arm.labels with
    | none => "default:"
    | some labels => "case " ++ ", ".intercalate (labels.map fun l => "\"" ++ l ++ "\"") ++ ":"
  (w.onNewline label).indented fun w =>
    w.onNewline ("self = ." ++ arm.variant.caseName ++ "(try " ++ arm.variant.structName ++
      "(map: map))")

def writeSwitch (w : Writer) (variants : List Variant) : Writer :=
  let w := w.onNewline ("let typename: String = try map.value(forKey: \"" ++ typenameField ++ "\")")
  ((w.onNewline "switch typename \x7b").each (arms variants) writeArm).onNewline "\x7d"

mutual
def writeNested (w : Writer) : Nested → Writer
  | .struct name properties inner =>
    (w.newlineIfNeeded.onNewline ("public struct " ++ name ++ ": GraphQLMapConvertible")).block
      fun w =>
        let w := (w.each properties writeProperty).newlineIfNeeded
        let w := (w.onNewline "public init(map: GraphQLMap) throws").block
          fun w => w.each properties writeDecoding
        writeAll w inner
  | .choice name variants inner =>
    (w.newlineIfNeeded.onNewline ("public enum " ++ name ++ ": GraphQLMapConvertible")).block
      fun w =>
        let w := w.onNewlines
          (variants.map fun v => "case " ++ v.caseName ++ "(" ++ v.structName ++ ")")
        let w := (w.newlineIfNeeded.onNewline "public init(map: GraphQLMap) throws").block
          fun w => writeSwitch w variants
        writeAll w inner

def writeAll (w : Writer) : List Nested → Writer
  | [] => w
  | type :: rest => writeAll (writeNested w type) rest
end

def parameterList (parameters : List Parameter) : String :=
  ", ".intercalate (parameters.map fun p =>
    p.name ++ ": " ++ p.type ++ if p.isOptional then " = nil" else "")

def dictionary (parameters : List Parameter) : String :=
  "[" ++ ", ".intercalate (parameters.map fun p => "\"" ++ p.key ++ "\": " ++ p.name) ++ "]"

def writeText (w : Writer) : List String → Writer
  | [] => w
  | line :: rest =>
    writeText (w.onNewline (literal line ++ if rest.isEmpty then "" else " +")) rest

def writeOperation (w : Writer) (text : List String) (parameters : List Parameter)
    (data : Nested) : Writer :=
  let w := (w.onNewline "public static let operationString =").indented fun w => writeText w text
  let w := if parameters.isEmpty then w else w.newlineIfNeeded
  let w := w.onNewlines (parameters.map fun p => "public let " ++ p.name ++ ": " ++ p.type)
  let w := w.newlineIfNeeded.onNewline ("public init(" ++ parameterList parameters ++ ")")
  let w := w.block fun w =>
    w.onNewlines (parameters.map fun p => "self." ++ p.name ++ " = " ++ p.name)
  let w := if parameters.isEmpty then w
    else (w.newlineIfNeeded.onNewline "public var variables: GraphQLMap?").block fun w =>
      w.onNewline ("return " ++ dictionary parameters)
  writeNested w data

def writeEnum (w : Writer) (name : String) (comment : Option String) (values : List EnumValue) :
    Writer :=
  let w := (writeComment w.newlineIfNeeded comment).onNewline ("public enum " ++ name ++ ": String")
  let w := w.block fun w => w.each values fun w value =>
    (writeComment w (value.description.map trim)).onNewline
      ("case " ++ identifier (lowerCamel value.name) ++ " = \"" ++ value.name ++ "\"")
  w.newlineIfNeeded.onNewline ("extension " ++ name ++ ": JSONDecodable, JSONEncodable \x7b\x7d")

def writeInput (w : Writer) (name : String) (parameters : List Parameter) : Writer :=
  let map := if parameters.isEmpty then "[:]" else dictionary parameters
  (w.newlineIfNeeded.onNewline ("public struct " ++ name ++ ": GraphQLMapEncodable")).block fun w =>
    let w := (w.onNewline "public var graphQLMap: GraphQLMap").newlineIfNeeded
    (w.onNewline ("public init(" ++ parameterList parameters ++ ")")).block fun w =>
      w.onNewline ("graphQLMap = " ++ map)

def writeItem (w : Writer) : Item → Writer
  | .operation name kind text parameters data =>
    (w.newlineIfNeeded.onNewline
      ("public final class " ++ name ++ ": GraphQL" ++ kind.suffix)).block fun w =>
        writeOperation w text parameters data
  | .enum name comment values => writeEnum w name comment values
  | .input name parameters => writeInput w name parameters

def items (e : Emission) : Except Error (List Item) := do
  let operations ← e.compiled.operations.mapM (operationItem e)
  let inputs ← e.inputsUsed.mapM (inputItem e)
  return operations ++ e.enumsUsed.map enumItem ++ inputs

def source (e : Emission) : Except Error String := do
  let w := (Writer.print {} generatedHeader).newlineIfNeeded.onNewline "import Apollo"
  return (w.each (← items e) writeItem).newline.output

end QueryTypes.Swift
