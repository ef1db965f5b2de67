import QueryTypes.Schema
import QueryTypes.TypeSystem.Rule

namespace QueryTypes

namespace Schema

/-- The types defined by the items, behind the built-in scalars. A later definition of a name takes
    the place of an earlier one. -/
def definitionsOf (items : List SchemaItem) : List TypeDefinition :=
  let builtIn : List TypeDefinition := builtInScalars.map (⟨·, none, .scalar⟩)
  let written := items.filterMap fun
    | .type definition => some definition
    | _ => none
  distinctBy TypeDefinition.name (builtIn ++ written)

def extensionsOf (items : List SchemaItem) : List TypeExtension :=
  items.filterMap fun
    | .extension addition => some addition
    | _ => none

def rootNamesOf (items : List SchemaItem) : RootNames :=
  items.foldl (fun names item =>
    match item with
    | .roots later => later
    | _ => names) ⟨none, none, none⟩

def extend (types : List TypeDefinition) (addition : TypeExtension) :
    Except Error (List TypeDefinition) :=
  match types.find? (·.name == addition.name) with
  | none => .error (.configuration (.extensionOfUndefined addition.name))
  | some type =>
    match type.body.append? addition.body with
    | none => .error (.configuration (.extensionOfOtherKind addition.name))
    | some body => .ok (putBy TypeDefinition.name types { type with body })

/-- A root type given by name, or else the type of the usual name if there is one. -/
def rootOr (types : List TypeDefinition) (given : Option String) (usual : String) :
    Option String :=
  match given with
  | some name => some name
  | none => if types.any (·.name == usual) then some usual else none

def checkRoot (types : List TypeDefinition) (name : String) : Except Error Unit :=
  if (types.find? (·.name == name)).any TypeDefinition.isObject then .ok ()
  else .error (.configuration (.rootNotObject name))

def ofItems (items : List SchemaItem) : Except Error Schema := do
  let types ← (extensionsOf items).foldlM extend (definitionsOf items)
  let names := rootNamesOf items
  match rootOr types names.query "Query" with
  | none => throw (.configuration .noQueryType)
  | some query =>
    let mutation := rootOr types names.mutation "Mutation"
    let subscription := rootOr types names.subscription "Subscription"
    ([some query, mutation, subscription].filterMap id).forM (checkRoot types)
    return ⟨types, query, mutation, subscription⟩

def read (path : Option String) (text : String) : Except Error Schema := do
  let items ← (SchemaItem.parse text).mapError fun place => .parse ⟨path, .schema, place⟩
  ofItems items

end Schema

end QueryTypes
