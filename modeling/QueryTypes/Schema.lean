import QueryTypes.Error
import QueryTypes.Ordered
import QueryTypes.TypeSystem

namespace QueryTypes

structure Schema where
  types : List TypeDefinition
  query : String
  mutation : Option String
  subscription : Option String
  deriving DecidableEq, Repr, Inhabited

namespace Schema

def type? (schema : Schema) (name : String) : Option TypeDefinition :=
  schema.types.find? (·.name == name)

def rootName? (schema : Schema) : OperationKind → Option String
  | .query => some schema.query
  | .mutation => schema.mutation
  | .subscription => schema.subscription

def isRoot (schema : Schema) (name : String) : Bool :=
  schema.query == name || schema.mutation == some name || schema.subscription == some name

def root (schema : Schema) (kind : OperationKind) : Except Error TypeDefinition :=
  match (schema.rootName? kind).bind schema.type?, kind with
  | some type, _ => .ok type
  | none, .query => .error (.configuration .noQueryType)
  | none, .mutation => .error (.configuration .noMutations)
  | none, .subscription => .error (.configuration .noSubscriptions)

/-- What a type adds to the concrete types of the abstract type `name`: the union of that name its
    members, an object that lists it as an interface itself. -/
def concreteOf (name : String) (type : TypeDefinition) : List String :=
  match type.body with
  | .union members => if type.name = name then members else []
  | .object interfaces _ => if name ∈ interfaces then [type.name] else []
  | _ => []

def listed (schema : Schema) (name : String) : List String :=
  distinct (schema.types.flatMap (concreteOf name))

def possibleTypes (schema : Schema) (name : String) : List String :=
  match schema.type? name with
  | none => []
  | some type => if type.isObject then [type.name] else schema.listed name

def isPossible (schema : Schema) (abstract object : String) : Bool :=
  (schema.listed abstract).contains object

/-- Whether every value of the type `sub` is known to be of the type `super`: they are the same, or
    `sub` is an object type listed for the abstract type `super`. -/
def isSupertype (schema : Schema) (super sub : TypeDefinition) : Bool :=
  super.name == sub.name ||
    (sub.isObject && super.isAbstract && schema.isPossible super.name sub.name)

end Schema

def typenameField : String := "__typename"

namespace FieldDefinition

def schemaMeta : FieldDefinition :=
  ⟨"__schema", some "Access the current type schema of this server.", [],
    .nonNull (.named "__Schema")⟩

def typeMeta : FieldDefinition :=
  ⟨"__type", some "Request the type information of a single type.",
    [⟨"name", none, .nonNull (.named "String"), false⟩], .named "__Type"⟩

def typenameMeta : FieldDefinition :=
  ⟨typenameField, some "The name of the current Object type at runtime.", [],
    .nonNull (.named "String")⟩

end FieldDefinition

namespace Schema

/-- The definition of a field selected on a type. The query type also has the fields on the schema
    itself, and every composite type its own name. -/
def field? (schema : Schema) (parent : TypeDefinition) (name : String) : Option FieldDefinition :=
  if name = "__schema" ∧ parent.name = schema.query then some .schemaMeta
  else if name = "__type" ∧ parent.name = schema.query then some .typeMeta
  else if name = typenameField ∧ parent.isComposite then some .typenameMeta
  else parent.field? name

structure RootField where
  kind : OperationKind
  field : FieldDefinition
  returns : Option TypeDefinition

def rootField? (schema : Schema) (name : String) : Except Error (Option RootField) :=
  if name.isEmpty then .error (.configuration .noOperationName)
  else
    let found (kind : OperationKind) : Option RootField := do
      let root ← (schema.root kind).toOption
      let field ← root.field? name
      return ⟨kind, field, schema.type? field.type.baseName⟩
    .ok ([OperationKind.query, .mutation, .subscription].findSome? found)

end Schema

namespace TypeRef

/-- The written form of a type, whole or only its base name. A type that is non-null twice has
    none. -/
def name (base : Bool) : TypeRef → Except Error String
  | named name => .ok name
  | list element => do
    let inner ← element.name base
    return if base then inner else "[" ++ inner ++ "]"
  | nonNull (nonNull inner) => .error (.compiler (.unnameableType (.nonNull (.nonNull inner))))
  | nonNull inner => do
    let text ← inner.name base
    return if base then text else text ++ "!"

end TypeRef

end QueryTypes
