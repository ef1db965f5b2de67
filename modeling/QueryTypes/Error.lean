import QueryTypes.Position
import QueryTypes.Document
import QueryTypes.Text.Blank

namespace QueryTypes

inductive ConfigurationFault where
  | noSchemaPath
  | extensionOfUndefined (name : String)
  | extensionOfOtherKind (name : String)
  | noQueryType
  | rootNotObject (name : String)
  | noMutations
  | noSubscriptions
  | noOperationName
  | unknownTarget (name : String)
  | emptyIdsPath
  | noIdsPath
  deriving DecidableEq, Repr

def ConfigurationFault.message : ConfigurationFault → String
  | noSchemaPath => "at least one schema path is required"
  | extensionOfUndefined name => "cannot extend type `" ++ name ++ "` because it is not defined"
  | extensionOfOtherKind name =>
    "extension of `" ++ name ++ "` does not match the kind of its definition"
  | noQueryType => "schema does not define a query type"
  | rootNotObject name => "root operation type `" ++ name ++ "` must be a defined object type"
  | noMutations => "schema is not configured for mutations"
  | noSubscriptions => "schema is not configured for subscriptions"
  | noOperationName => "operation name parameter is required"
  | unknownTarget name =>
    "unsupported target `" ++ name ++ "` (expected json, swift, ts, typescript, or flow)"
  | emptyIdsPath => "operation ids path cannot be empty"
  | noIdsPath => "operation ids require a path for the id map"

inductive CompilerFault where
  | anonymousOperation
  | fragmentAtRoot (condition operation : String)
  | unknownFragment (name : String)
  | recursiveFragment (name : String)
  | unknownType (name : String)
  | notComposite (name : String)
  | unknownField (field type : String)
  | unnameableType (type : TypeRef)
  | unwritableType (type : TypeRef)
  deriving DecidableEq, Repr

def CompilerFault.message : CompilerFault → String
  | anonymousOperation => "cannot compile an anonymous operation"
  | fragmentAtRoot condition operation =>
    "fragment on `" ++ condition ++ "` cannot be spread at the root of `" ++ operation ++ "`"
  | unknownFragment name => "unknown fragment `" ++ name ++ "`"
  | recursiveFragment name => "fragment `" ++ name ++ "` spreads itself"
  | unknownType name => "unknown type `" ++ name ++ "`"
  | notComposite name => "type condition `" ++ name ++ "` is not a composite type"
  | unknownField field type => "cannot query field `" ++ field ++ "` on type `" ++ type ++ "`"
  | unnameableType type =>
    "cannot find type name for `" ++ type.toText ++ "`: non-null wraps a non-null type"
  | unwritableType type =>
    "cannot generate type for `" ++ type.toText ++ "`: non-null wraps a non-null type"

inductive Complaint where
  | anonymousOperation
  | duplicateOperation (name : String)
  | duplicateFragment (name : String)
  | nonInputVariable (name : String) (type : TypeRef)
  | unsupportedKind (kind : OperationKind)
  | unknownType (name : String)
  | notComposite (name : String)
  | typenameAlias
  | typenameSelected
  | unknownField (field type : String)
  | subfieldsOfLeaf (field : String) (type : TypeRef)
  | noSubfields (field : String) (type : TypeRef)
  | unknownFragment (name : String)
  | inlineImpossible (parent condition : String)
  | spreadImpossible (name parent condition : String)
  deriving DecidableEq, Repr

def Complaint.message : Complaint → String
  | anonymousOperation => "anonymous operations are not supported"
  | duplicateOperation name => "there can be only one operation named `" ++ name ++ "`"
  | duplicateFragment name => "there can be only one fragment named `" ++ name ++ "`"
  | nonInputVariable name type =>
    "variable `$" ++ name ++ "` cannot be non-input type `" ++ type.toText ++ "`"
  | unsupportedKind kind => "schema is not configured for " ++ kind.keyword ++ "s"
  | unknownType name => "unknown type `" ++ name ++ "`"
  | notComposite name => "fragment cannot condition on non composite type `" ++ name ++ "`"
  | typenameAlias => "`__typename` may not be used as an alias"
  | typenameSelected =>
    "`__typename` is added automatically for this target and must not be selected"
  | unknownField field type => "cannot query field `" ++ field ++ "` on type `" ++ type ++ "`"
  | subfieldsOfLeaf field type =>
    "field `" ++ field ++ "` must not have a selection since type `" ++ type.toText ++
      "` has no subfields"
  | noSubfields field type =>
    "field `" ++ field ++ "` of type `" ++ type.toText ++ "` must have a selection of subfields"
  | unknownFragment name => "unknown fragment `" ++ name ++ "`"
  | inlineImpossible parent condition =>
    "inline fragment cannot be spread here as objects of type `" ++ parent ++
      "` can never be of type `" ++ condition ++ "`"
  | spreadImpossible name parent condition =>
    "fragment `" ++ name ++ "` cannot be spread here as objects of type `" ++ parent ++
      "` can never be of type `" ++ condition ++ "`"

structure Diagnostic where
  complaint : Complaint
  position : Position
  deriving DecidableEq, Repr

def Position.toText (p : Position) : String := toString p.line ++ ":" ++ toString p.column

def Diagnostic.toText (diagnostic : Diagnostic) : String :=
  diagnostic.position.toText ++ ": " ++ diagnostic.complaint.message

inductive SourceKind where
  | query
  | schema
  deriving DecidableEq, Repr

structure ParseFault where
  path : Option String
  kind : SourceKind
  position : Position
  deriving DecidableEq, Repr

/-- The message is one line. It is cut short if there is a line feed in the path. -/
def ParseFault.message (fault : ParseFault) : String :=
  let kind := match fault.kind with
    | .query => "query"
    | .schema => "schema"
  firstLine ("failed to parse " ++ fault.path.getD "graphql source" ++ ": " ++ kind ++
    " parse error: Parse error at " ++ fault.position.toText)

inductive Error where
  | configuration (fault : ConfigurationFault)
  | compiler (fault : CompilerFault)
  | validation (diagnostics : List Diagnostic)
  | parse (fault : ParseFault)
  | io
  deriving DecidableEq, Repr

def Error.message : Error → String
  | configuration fault => "configuration error: " ++ fault.message
  | compiler fault => "compiler error: " ++ fault.message
  | validation diagnostics =>
    "validation of graphql documents failed:\n" ++
      "\n".intercalate (diagnostics.map fun d => "  " ++ d.toText)
  | parse fault => fault.message
  | io => "io error"

instance : Inhabited Error := ⟨.io⟩

end QueryTypes
