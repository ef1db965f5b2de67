import QueryTypes.Ordered
import QueryTypes.Schema

namespace QueryTypes

/-- The fields of a value when its concrete type is one of `possibleTypes`. -/
structure TypeCase (F : Type) where
  condition : String
  possibleTypes : List String
  fields : List F
  spreads : List String
  deriving Repr, Inhabited

/-- A field of a response, with all that is selected below it. `fields` are selected for every
    concrete type; `cases` are the whole selections for types that a condition singles out. -/
structure ResponseField where
  responseName : String
  fieldName : String
  type : TypeRef
  description : Option String
  /-- Whether a directive may leave the field out of the response. -/
  isConditional : Bool
  fields : List ResponseField
  spreads : List String
  cases : List (TypeCase ResponseField)
  deriving Repr, Inhabited

def upsert {α : Type} (p : α → Bool) (update : α → α) (new : α) : List α → List α
  | [] => [new]
  | x :: rest => if p x then update x :: rest else x :: upsert p update new rest

namespace ResponseField

mutual
/-- Merges a field into a list. A field with the same response name takes up what is selected below
    the new one, and is conditional only if both are. -/
def mergeInto (into : List ResponseField) : ResponseField → List ResponseField
  | ⟨responseName, fieldName, type, description, isConditional, fields, spreads, cases⟩ =>
    upsert (·.responseName == responseName)
      (fun existing => { existing with
        isConditional := existing.isConditional && isConditional
        fields := mergeAll existing.fields fields
        spreads := insertAll existing.spreads spreads
        cases := mergeCases existing.cases cases })
      ⟨responseName, fieldName, type, description, isConditional, fields, spreads, cases⟩ into
termination_by structural field => field

def mergeAll (into : List ResponseField) : List ResponseField → List ResponseField
  | [] => into
  | field :: rest => mergeAll (mergeInto into field) rest
termination_by structural fields => fields

def mergeCase (into : List (TypeCase ResponseField)) :
    TypeCase ResponseField → List (TypeCase ResponseField)
  | ⟨condition, possibleTypes, fields, spreads⟩ =>
    upsert (·.condition == condition)
      (fun existing => { existing with fields := mergeAll existing.fields fields })
      ⟨condition, possibleTypes, fields, spreads⟩ into
termination_by structural typeCase => typeCase

def mergeCases (into : List (TypeCase ResponseField)) :
    List (TypeCase ResponseField) → List (TypeCase ResponseField)
  | [] => into
  | typeCase :: rest => mergeCases (mergeCase into typeCase) rest
termination_by structural cases => cases
end

def isTypename (field : ResponseField) : Bool := field.fieldName == typenameField

end ResponseField

structure Collected where
  fields : List ResponseField := []
  spreads : List String := []
  deriving Repr, Inhabited

end QueryTypes
