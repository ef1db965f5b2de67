import QueryTypes.Compiled

namespace QueryTypes

/-- One of the shapes that the value of a field may have: for the types under a condition, or for
    all others. -/
structure PropertySet where
  condition : Option String
  fields : List ResponseField
  deriving Repr, Inhabited

namespace ResponseField

def uncovered (schema : Schema) (field : ResponseField) : List String :=
  (schema.possibleTypes field.type.baseName).filter fun type =>
    field.cases.all fun typeCase => !typeCase.possibleTypes.contains type

/-- The shapes of a field, none if it has the same one for all types. The shape without a condition
    is left out if it has only the type name and applies to no type. -/
def propertySets (schema : Schema) (field : ResponseField) : List PropertySet :=
  if field.cases.isEmpty then []
  else
    field.cases.map (fun typeCase => ⟨some typeCase.condition, typeCase.fields⟩) ++
      if field.fields.any (!·.isTypename) || !(field.uncovered schema).isEmpty then
        [⟨none, field.fields⟩]
      else []

end ResponseField

def CompiledFragment.toField (fragment : CompiledFragment) : ResponseField :=
  { responseName := fragment.name
    fieldName := fragment.name
    type := .nonNull (.named fragment.condition)
    description := none
    isConditional := false
    fields := fragment.fields
    spreads := fragment.spreads
    cases := fragment.cases }

end QueryTypes
