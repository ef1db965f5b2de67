import QueryTypes.TypeRef

namespace QueryTypes

structure InputValue where
  name : String
  description : Option String
  type : TypeRef
  hasDefault : Bool
  deriving DecidableEq, Repr, Inhabited

/-- A required input value has to be given: it is never null and has no default. -/
def InputValue.isRequired (value : InputValue) : Bool := value.type.isNonNull && !value.hasDefault

structure FieldDefinition where
  name : String
  description : Option String
  arguments : List InputValue
  type : TypeRef
  deriving DecidableEq, Repr, Inhabited

structure EnumValue where
  name : String
  description : Option String
  deriving DecidableEq, Repr, Inhabited

inductive TypeBody where
  | scalar
  | object (interfaces : List String) (fields : List FieldDefinition)
  | interface (fields : List FieldDefinition)
  | union (members : List String)
  | enum (values : List EnumValue)
  | input (fields : List InputValue)
  deriving DecidableEq, Repr, Inhabited

def TypeBody.append? : TypeBody → TypeBody → Option TypeBody
  | scalar, scalar => some scalar
  | object i f, object j g => some (object (i ++ j) (f ++ g))
  | interface f, interface g => some (interface (f ++ g))
  | union m, union n => some (union (m ++ n))
  | enum v, enum w => some (enum (v ++ w))
  | input f, input g => some (input (f ++ g))
  | _, _ => none

structure TypeDefinition where
  name : String
  description : Option String
  body : TypeBody
  deriving DecidableEq, Repr, Inhabited

structure TypeExtension where
  name : String
  body : TypeBody
  deriving DecidableEq, Repr, Inhabited

structure RootNames where
  query : Option String
  mutation : Option String
  subscription : Option String
  deriving DecidableEq, Repr, Inhabited

inductive SchemaItem where
  | roots (names : RootNames)
  | type (definition : TypeDefinition)
  | extension (addition : TypeExtension)
  | directive
  deriving DecidableEq, Repr, Inhabited

def builtInScalars : List String := ["String", "Int", "Float", "Boolean", "ID"]

namespace TypeDefinition

def fields (type : TypeDefinition) : List FieldDefinition :=
  match type.body with
  | .object _ fields | .interface fields => fields
  | _ => []

def inputFields (type : TypeDefinition) : List InputValue :=
  match type.body with
  | .input fields => fields
  | _ => []

def interfaces (type : TypeDefinition) : List String :=
  match type.body with
  | .object interfaces _ => interfaces
  | _ => []

def members (type : TypeDefinition) : List String :=
  match type.body with
  | .union members => members
  | _ => []

def values (type : TypeDefinition) : List EnumValue :=
  match type.body with
  | .enum values => values
  | _ => []

def isObject (type : TypeDefinition) : Bool := type.body matches .object ..

def isComposite (type : TypeDefinition) : Bool :=
  type.body matches .object .. | .interface _ | .union _

def isAbstract (type : TypeDefinition) : Bool := type.body matches .interface _ | .union _

def isLeaf (type : TypeDefinition) : Bool := type.body matches .scalar | .enum _

def isInput (type : TypeDefinition) : Bool := type.body matches .scalar | .enum _ | .input _

def isBuiltInScalar (type : TypeDefinition) : Bool :=
  type.body matches .scalar && builtInScalars.contains type.name

/-- Types that a generated source may have to declare: enums, input objects and scalars that are
    not built in. -/
def isDeclared (type : TypeDefinition) : Bool :=
  match type.body with
  | .enum _ | .input _ => true
  | .scalar => !type.isBuiltInScalar
  | _ => false

def field? (type : TypeDefinition) (name : String) : Option FieldDefinition :=
  type.fields.find? (·.name == name)

end TypeDefinition

end QueryTypes
