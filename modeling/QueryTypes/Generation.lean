import QueryTypes.Compiled.Json
import QueryTypes.Declaration.Flow
import QueryTypes.Declaration.Swift
import QueryTypes.Declaration.TypeScript
import QueryTypes.Synthesis
import QueryTypes.Validation

namespace QueryTypes

structure Artifacts where
  source : String
  /-- The names and texts of the operations by their ids, if ids are wanted. -/
  operationIds : Option String
  deriving DecidableEq, Repr, Inhabited

namespace Emission

def source (e : Emission) : Target → Except Error String
  | .json => .ok e.compiled.toJson.toText
  | .swift => Swift.source e
  | .typeScript => TypeScript.source e
  | .flow => Flow.source e

end Emission

namespace Schema

/-- The document itself if it is valid, or without one the default operations. -/
def validDocument (schema : Schema) (document : Option Document) (target : Target) :
    Except Error Document := do
  match document with
  | some document =>
    document.validate schema target.addsTypename
    return document
  | none =>
    let document ← schema.defaultDocument
    document.validate schema false
    return document

def generate (schema : Schema) (document : Option Document) (target : Target)
    (options : Options) : Except Error Artifacts := do
  options.validate
  let valid ← schema.validDocument document target
  let options := { options with addTypename := options.addTypename || target.addsTypename }
  let prepared ← if options.addTypename then valid.withDiscriminators schema else pure valid
  let compiled ← prepared.compile schema options
  let source ← Emission.source ⟨compiled, options, document.isNone⟩ target
  return ⟨source, if options.operationIds then some compiled.idsJson.toText else none⟩

end Schema

end QueryTypes
