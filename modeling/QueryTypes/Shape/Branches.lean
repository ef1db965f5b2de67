import QueryTypes.Shape

namespace QueryTypes

/-- What is collected under a type condition that does not always hold. -/
structure Branch where
  condition : String
  content : Collected
  deriving Repr, Inhabited

structure ResolvedBranch extends Branch where
  types : List String
  deriving Repr, Inhabited

namespace ResolvedBranch

def applying (branches : List ResolvedBranch) (type : String) : List ResolvedBranch :=
  branches.filter (·.types.contains type)

/-- The first of the branches that applies to no type but those of all of them. -/
def mostSpecific? (branches : List ResolvedBranch) : Option ResolvedBranch :=
  branches.find? fun candidate => branches.all fun other =>
    candidate.types.all other.types.contains

/-- The name of the group of an object type: the condition of the most specific branch that applies
    to it, or its own name if there is none. -/
def groupOf (branches : List ResolvedBranch) (type : String) : String :=
  match mostSpecific? (applying branches type) with
  | some branch => branch.condition
  | none => type

/-- The case of the types of one group. Its first type decides which branches take part. -/
def caseOf (base : Collected) (branches : List ResolvedBranch) (group : String)
    (types : List String) : TypeCase ResponseField :=
  let parts := match types with
    | [] => []
    | first :: _ => applying branches first
  { condition := group
    possibleTypes := types
    fields := parts.foldl (fun fields part => ResponseField.mergeAll fields part.content.fields)
      base.fields
    spreads := distinct (parts.flatMap (·.content.spreads)) }

/-- Branches regrouped into cases, so that each object type that some branch applies to is in one
    case, with the fields of every branch that applies to it. -/
def exclusive (base : Collected) (branches : List ResolvedBranch) :
    List (TypeCase ResponseField) :=
  let grouped := (distinct (branches.flatMap (·.types))).map fun type =>
    (groupOf branches type, type)
  (distinct (grouped.map Prod.fst)).map fun group =>
    caseOf base branches group ((grouped.filter (·.1 == group)).map Prod.snd)

end ResolvedBranch

namespace Branch

def resolve (schema : Schema) (scope : List String) (branch : Branch) : ResolvedBranch :=
  { branch with types := (schema.possibleTypes branch.condition).filter scope.contains }

/-- The cases of the object types of the parent that branches apply to. -/
def exclusive (schema : Schema) (parent : String) (base : Collected) (branches : List Branch) :
    List (TypeCase ResponseField) :=
  let scope := schema.possibleTypes parent
  ResolvedBranch.exclusive base (branches.map (resolve schema scope))

end Branch

end QueryTypes
