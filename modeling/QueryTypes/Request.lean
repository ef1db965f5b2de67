import QueryTypes.Generation
import QueryTypes.Sources

namespace QueryTypes

/-- A run from files to files. Without inputs the default operations are used, and without an output
    the source goes to the console. -/
structure Request where
  schemas : List String
  inputs : List String := []
  output : Option String := none
  target : Target := .json
  tag : String := "gql"
  options : Options := {}
  deriving DecidableEq, Repr, Inhabited

structure World where
  store : Store := {}
  console : String := ""
  deriving DecidableEq, Repr, Inhabited

structure Completion where
  result : Except Error Unit
  world : World

inductive Delivery where
  | file (path contents : String)
  | console (text : String)
  deriving DecidableEq, Repr

namespace Delivery

/-- Every file is prepared before any of them takes its place. -/
def canStage (store : Store) : Delivery → Bool
  | file path _ => store.canStage path
  | console _ => true

def perform (world : World) : Delivery → Except Error World
  | file path contents =>
    match world.store.persist path contents with
    | some store => .ok { world with store := store }
    | none => .error .io
  | console text => .ok { world with console := world.console ++ text }

def performAll (world : World) : List Delivery → Completion
  | [] => ⟨.ok (), world⟩
  | delivery :: rest =>
    match delivery.perform world with
    | .ok world => performAll world rest
    | .error e => ⟨.error e, world⟩

end Delivery

def endLine (text : String) : String := if text.endsWith "\n" then text else text ++ "\n"

namespace Request

def artifacts (request : Request) (read : FileReader) : Except Error Artifacts := do
  if request.options.operationIds && request.options.operationIdsPath.isNone then
    throw (.configuration .noIdsPath)
  let schema ← Schema.ofFiles read request.schemas
  let document ←
    if request.inputs.isEmpty then pure none
    else some <$> Document.ofFiles read request.tag request.inputs
  schema.generate document request.target request.options

/-- The source is handed over first, then the operation ids. -/
def deliveries (request : Request) (made : Artifacts) : List Delivery :=
  let source := match request.output with
    | some path => Delivery.file path made.source
    | none => .console (endLine made.source)
  let ids := match made.operationIds, request.options.operationIdsPath with
    | some ids, some path => [Delivery.file path ids]
    | _, _ => []
  source :: ids

def run (request : Request) (world : World) : Completion :=
  let read := fun path => (world.store.read path).elim (.error .io) .ok
  match request.artifacts read with
  | .error e => ⟨.error e, world⟩
  | .ok made =>
    let deliveries := request.deliveries made
    if deliveries.all (Delivery.canStage world.store) then Delivery.performAll world deliveries
    else ⟨.error .io, world⟩

end Request

end QueryTypes
