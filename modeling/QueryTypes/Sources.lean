import QueryTypes.Document.Read
import QueryTypes.Schema.Build
import QueryTypes.Store
import QueryTypes.Tagged

namespace QueryTypes

abbrev FileReader := String → Except Error String

/-- The end of a file's name after its last point, unless the name begins with that point. -/
def extension? (path : String) : Option String :=
  let name := (pathParts path).getLast?.getD ""
  match name.toList.reverse.span (· != '.') with
  | (ending, _ :: _ :: _) => some (String.ofList ending.reverse)
  | _ => none

def isDocumentFile (path : String) : Bool :=
  match extension? path with
  | some ending => ["graphql", "graphqls", "gql"].contains ending
  | none => false

def Document.ofFile (read : FileReader) (tag path : String) : Except Error (Option Document) := do
  let contents ← read path
  match if isDocumentFile path then some contents else taggedText tag contents with
  | some text => some <$> Document.read (some path) text
  | none => return none

/-- The definitions of all files in order. -/
def Document.ofFiles (read : FileReader) (tag : String) (paths : List String) :
    Except Error Document := do
  let documents ← paths.mapM (Document.ofFile read tag)
  return Document.concat (documents.filterMap id)

/-- The schema of the files one after another. A line ends with each of them. -/
def Schema.ofFiles (read : FileReader) (paths : List String) : Except Error Schema := do
  if paths.isEmpty then throw (.configuration .noSchemaPath)
  let texts ← paths.mapM read
  let path := match paths with
    | [path] => some path
    | _ => none
  Schema.read path (String.join (texts.map (· ++ "\n")))

end QueryTypes
