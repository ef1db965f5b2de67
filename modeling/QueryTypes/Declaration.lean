import QueryTypes.Declaration.Type
import QueryTypes.Shape.PropertySet
import QueryTypes.Writer

namespace QueryTypes

structure Emission where
  compiled : Compiled
  options : Options
  /-- Whether the operations were made from the schema. -/
  synthesized : Bool

def generatedHeader : String :=
  "//  This file was automatically generated and should not be edited."

namespace Emission

def schema (e : Emission) : Schema := e.compiled.schema

def typesUsed (e : Emission) : List TypeDefinition := e.compiled.typesUsed.filterMap e.schema.type?

def enumsUsed (e : Emission) : List TypeDefinition :=
  e.typesUsed.filter fun type => type.body matches .enum _

def inputsUsed (e : Emission) : List TypeDefinition :=
  e.typesUsed.filter fun type => type.body matches .input _

def isComposite (e : Emission) (field : ResponseField) : Bool :=
  (e.schema.type? field.type.baseName).any TypeDefinition.isComposite

/-- The name of a scalar: as built in, or its own behind the chosen text, or else `otherwise`. -/
def scalarName (e : Emission) (builtIn : String → Option String) (otherwise name : String) :
    String :=
  match builtIn name, e.options.customScalars with
  | some mapped, _ => mapped
  | none, some front => front ++ name
  | none, none => otherwise

end Emission

inductive Leaf where
  | scalar (text : String)
  | reference (name : String)
  deriving DecidableEq, Repr, Inhabited

def Leaf.text : Leaf → String
  | scalar text => text
  | reference name => name

structure Member (T : Type) where
  comments : List String
  name : String
  isOptional : Bool
  type : T
  deriving Repr, Inhabited

/-- The type of a property: one of several texts, one of several named types, or an object type
    written in its place. -/
inductive MemberType where
  | literals (texts : List String)
  | named (around : Around) (alternatives : List Leaf)
  | object (around : Around) (members : List (Member MemberType))
  deriving Repr, Inhabited

structure Method where
  name : String
  parameters : List (String × MemberType)
  result : String
  key : String
  deriving Repr, Inhabited

inductive Declaration where
  | record (name : String) (comments : List String) (members : List (Member MemberType))
  | enum (name : String) (comments : List String) (values : List (Option String × String))
  | union (name : String) (alternatives : List String)
  | methods (name : String) (methods : List Method)
  deriving Repr, Inhabited

def commentLines (description : Option String) : List String :=
  (description.toList.flatMap lines).map trim

def literalUnion (texts : List String) : String :=
  if texts.isEmpty then "string"
  else " | ".intercalate (texts.map fun text => "\"" ++ text ++ "\"")

namespace ResponseField

def typenames (schema : Schema) (field : ResponseField) (set : PropertySet) : List String :=
  match set.condition with
  | some condition =>
    ((field.cases.find? (·.condition == condition)).map TypeCase.possibleTypes).getD []
  | none => field.uncovered schema

def setName (field : ResponseField) (set : PropertySet) : String :=
  set.condition.getD field.type.baseName

end ResponseField

/-- How a language of structural types writes declarations. -/
structure Dialect where
  banner : String
  /-- The type without values. -/
  noValues : String
  /-- What stands around the name of a declared object type. -/
  head : Around
  /-- What stands around the properties of a declared object type. -/
  body : Around
  deriving Repr, Inhabited

namespace MemberType

def text : MemberType → String
  | literals texts => literalUnion texts
  | named around alternatives => around.write (" | ".intercalate (alternatives.map Leaf.text))
  | object around _ => around.write ""

end MemberType

namespace Declaration

mutual
def writeMember (w : Writer) : Member MemberType → Writer
  | ⟨comments, name, isOptional, type⟩ =>
    writeTyped (w.onNewlines (comments.map ("// " ++ ·)))
      (name ++ (if isOptional then "?" else "") ++ ": ") type

def writeTyped (w : Writer) (label : String) : MemberType → Writer
  | .literals texts => w.onNewline (label ++ literalUnion texts ++ ",")
  | .named around alternatives =>
    w.onNewline (label ++ (MemberType.named around alternatives).text ++ ",")
  | .object around members =>
    ((w.onNewline (label ++ around.opening)).enclosed "\x7b" "\x7d"
      (fun w => writeMembers w members)).print (around.closing ++ ",")

def writeMembers (w : Writer) : List (Member MemberType) → Writer
  | [] => w
  | member :: rest => writeMembers (writeMember w member) rest
end

def start (w : Writer) (comments : List String) : Writer :=
  w.newlineIfNeeded.newline.each comments fun w line => (w.print ("// " ++ line)).newline

def writeValues (w : Writer) : List (Option String × String) → Writer
  | [] => w
  | (comment, value) :: rest =>
    let mark := if rest.isEmpty then ";" else " |"
    let w := w.onNewlines (comment.toList.map ("// " ++ ·))
    writeValues (w.onNewline ("\"" ++ value ++ "\"" ++ mark)) rest

def writeMethod (w : Writer) (method : Method) : Writer :=
  let parameter (p : String × MemberType) := p.1 ++ ": " ++ p.2.text
  w.onNewline (method.name ++ "(" ++ ", ".intercalate (method.parameters.map parameter) ++ "): " ++
    method.result ++ "[\"" ++ method.key ++ "\"],")

def write (dialect : Dialect) (w : Writer) : Declaration → Writer
  | .record name comments members =>
    ((start w comments).print (dialect.head.write name)).enclosed dialect.body.opening
      dialect.body.closing (fun w => writeMembers w members)
  | .enum name comments values =>
    let w := (start w comments).print ("export type " ++ name ++ " =")
    if values.isEmpty then w.print (" " ++ dialect.noValues ++ ";")
    else w.indented (fun w => writeValues w values)
  | .union name alternatives =>
    (start w []).print
      ("export type " ++ name ++ " = " ++ " | ".intercalate alternatives ++ ";")
  | .methods name entries =>
    ((start w []).print ("export interface " ++ name)).block (fun w => w.each entries writeMethod)

def source (dialect : Dialect) (declarations : List Declaration) : String :=
  let w := (Writer.print {} dialect.banner).onNewline generatedHeader
  (w.each declarations (write dialect)).newline.output

end Declaration

namespace Emission

def structuralScalar : String → Option String
  | "String" | "ID" => some "string"
  | "Int" | "Float" => some "number"
  | "Boolean" => some "boolean"
  | _ => none

def leaf (e : Emission) (rename : String → String) (name : String) : Leaf :=
  match (e.schema.type? name).map TypeDefinition.body with
  | none | some .scalar => .scalar (e.scalarName structuralScalar "string" name)
  | some (.enum _) | some (.input _) => .reference (rename name)
  | some _ => .reference name

def leafType (e : Emission) (style : TypeStyle) (rename : String → String) (type : TypeRef) :
    Except Error MemberType := do
  return .named (← style.around type) [e.leaf rename type.baseName]

/-- A property that is given to a service. It may be left out if it may be null. -/
def inputMember (e : Emission) (style : TypeStyle) (rename : String → String)
    (comments : List String) (name : String) (type : TypeRef) :
    Except Error (Member MemberType) := do
  return ⟨comments, name, !type.isNonNull, ← e.leafType style rename type⟩

def fieldComments (field : ResponseField) : List String :=
  if field.isTypename then [] else commentLines field.description

def typenameType (e : Emission) (parent : String) (typenames : Option (List String)) :
    MemberType :=
  .literals (typenames.getD (e.schema.possibleTypes parent))

end Emission

end QueryTypes
