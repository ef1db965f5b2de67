import QueryTypes.Compiled
import QueryTypes.Json

namespace QueryTypes

namespace ResponseField

mutual
/-- A field in JSON. Empty parts are left out. -/
def toJson : ResponseField → Json
  | ⟨responseName, fieldName, type, description, isConditional, fields, spreads, cases⟩ =>
    .object ([("responseName", .string responseName), ("fieldName", .string fieldName),
      ("type", .string type.toText)] ++ Json.textEntry? "description" description ++
      [("isConditional", .boolean isConditional)] ++
      Json.listEntry? "fields" (toJsons fields) ++
      Json.listEntry? "fragmentSpreads" (spreads.map .string) ++
      Json.listEntry? "inlineFragments" (casesJson cases))

def toJsons : List ResponseField → List Json
  | [] => []
  | field :: rest => toJson field :: toJsons rest

def caseJson : TypeCase ResponseField → Json
  | ⟨condition, possibleTypes, fields, spreads⟩ =>
    .object [("typeCondition", .string condition), ("possibleTypes", Json.strings possibleTypes),
      ("fields", .array (toJsons fields)), ("fragmentSpreads", Json.strings spreads)]

def casesJson : List (TypeCase ResponseField) → List Json
  | [] => []
  | typeCase :: rest => caseJson typeCase :: casesJson rest
end

end ResponseField

def Variable.toJson (v : Variable) : Json :=
  .object [("name", .string v.name), ("type", .string v.type.toText)]

def CompiledOperation.toJson (o : CompiledOperation) : Json :=
  .object ([("operationName", .string o.name), ("operationType", .string o.kind.keyword),
    ("rootType", .string o.rootType), ("variables", .array (o.parameters.map Variable.toJson)),
    ("source", .string o.source), ("fields", .array (ResponseField.toJsons o.fields)),
    ("fragmentsReferenced", Json.strings o.fragmentsReferenced),
    ("sourceWithFragments", .string o.sourceWithFragments)] ++ Json.textEntry? "operationId" o.id)

def CompiledFragment.toJson (f : CompiledFragment) : Json :=
  .object [("fragmentName", .string f.name), ("source", .string f.source),
    ("typeCondition", .string f.condition), ("possibleTypes", Json.strings f.possibleTypes),
    ("fields", .array (ResponseField.toJsons f.fields)),
    ("fragmentSpreads", Json.strings f.spreads),
    ("inlineFragments", .array (ResponseField.casesJson f.cases))]

namespace TypeDefinition

def kindName (type : TypeDefinition) : String :=
  match type.body with
  | .scalar => "scalar"
  | .object .. => "object"
  | .interface _ => "interface"
  | .union _ => "union"
  | .enum _ => "enum"
  | .input _ => "inputObject"

def toJson (type : TypeDefinition) : Json :=
  let value (v : EnumValue) : Json :=
    .object (("name", .string v.name) :: Json.textEntry? "description" v.description)
  let field (v : InputValue) : Json :=
    .object ([("name", .string v.name), ("type", .string v.type.toText)] ++
      Json.textEntry? "description" v.description)
  .object ([("kind", .string type.kindName), ("name", .string type.name)] ++
    Json.textEntry? "description" type.description ++
    Json.listEntry? "values" (type.values.map value) ++
    Json.listEntry? "fields" (type.inputFields.map field))

end TypeDefinition

namespace Compiled

def toJson (compiled : Compiled) : Json :=
  .object [("operations", .array (compiled.operations.map CompiledOperation.toJson)),
    ("fragments", .array (compiled.fragments.map CompiledFragment.toJson)),
    ("typesUsed", .array ((compiled.typesUsed.filterMap compiled.schema.type?).map
      TypeDefinition.toJson))]

def idsJson (compiled : Compiled) : Json :=
  let entry (o : CompiledOperation) : Option (String × Json) := o.id.map fun id =>
    (id, .object [("name", .string o.name), ("source", .string o.sourceWithFragments)])
  .object (distinctBy Prod.fst (compiled.operations.filterMap entry))

end Compiled

end QueryTypes
