import QueryTypes.Error

namespace QueryTypes

inductive Target where
  | json
  | swift
  | typeScript
  | flow
  deriving DecidableEq, Repr, Inhabited

namespace Target

def name : Target → String
  | json => "json"
  | swift => "swift"
  | typeScript => "typescript"
  | flow => "flow"

def ofName (name : String) : Except Error Target :=
  match name with
  | "json" => .ok json
  | "swift" => .ok swift
  | "ts" | "typescript" => .ok typeScript
  | "flow" => .ok flow
  | _ => .error (.configuration (.unknownTarget name))

/-- Whether every selection gets a discriminator for this target, so that none may be written. -/
def addsTypename : Target → Bool
  | swift => true
  | _ => false

end Target

structure Options where
  addTypename : Bool := false
  /-- Whether scalars that are not built in keep their names, and with what in front. -/
  customScalars : Option String := none
  pascalCase : Bool := false
  preferInterfaces : Bool := false
  operationIds : Bool := false
  operationIdsPath : Option String := none
  /-- Whether the fields of a fragment are merged into the selections that spread it. -/
  mergeSpreads : Bool := true
  deriving DecidableEq, Repr, Inhabited

def Options.validate (options : Options) : Except Error Unit :=
  if options.operationIdsPath = some "" then .error (.configuration .emptyIdsPath) else .ok ()

end QueryTypes
