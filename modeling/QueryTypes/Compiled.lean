import QueryTypes.Digest
import QueryTypes.Document.Printer
import QueryTypes.Graph
import QueryTypes.Options
import QueryTypes.Shape.Collect

namespace QueryTypes

structure Variable where
  name : String
  type : TypeRef
  deriving DecidableEq, Repr, Inhabited

structure CompiledOperation where
  name : String
  kind : OperationKind
  rootType : String
  parameters : List Variable
  source : String
  fields : List ResponseField
  fragmentsReferenced : List String
  sourceWithFragments : String
  id : Option String
  deriving Repr, Inhabited

structure CompiledFragment where
  name : String
  source : String
  condition : String
  possibleTypes : List String
  fields : List ResponseField
  spreads : List String
  cases : List (TypeCase ResponseField)
  deriving Repr, Inhabited

/-- The compiled operations and fragments of a document, each name once. -/
structure Compiled where
  schema : Schema
  operations : List CompiledOperation
  fragments : List CompiledFragment
  /-- The enums, input objects and custom scalars that the document reaches. -/
  typesUsed : List String
  deriving Repr, Inhabited

namespace Selection

mutual
def spreadNames : Selection → List String
  | .field _ _ selections => spreadNamesAll selections
  | .inline _ _ selections => spreadNamesAll selections
  | .spread s => [s.name]

def spreadNamesAll : List Selection → List String
  | [] => []
  | selection :: rest => spreadNames selection ++ spreadNamesAll rest
end

end Selection

def Schema.inputGraph (schema : Schema) : Graph :=
  ⟨schema.types.map fun type => (type.name, type.inputFields.map (·.type.baseName))⟩

/-- The types to be declared that the given ones reach through fields of input objects. -/
def Schema.typesUsed (schema : Schema) (names : List String) : List String :=
  (schema.inputGraph.reach names).filter fun name =>
    (schema.type? name).any TypeDefinition.isDeclared

namespace Compiler

def spreadGraph (c : Compiler) : Graph :=
  ⟨c.fragments.map fun f => (f.name, Selection.spreadNamesAll f.selectionSet.items)⟩

def fragmentsReferenced (c : Compiler) (selections : List Selection) :
    Except Error (List String) :=
  let names := c.spreadGraph.reach (Selection.spreadNamesAll selections)
  match names.find? fun name => (c.fragment? name).isNone with
  | some name => .error (.compiler (.unknownFragment name))
  | none => .ok names

def fragment (c : Compiler) (fragment : Fragment) :
    Except Error (CompiledFragment × List String) := do
  let parent ← c.composite fragment.condition
  let shape ← c.shape [fragment.name] parent fragment.selectionSet.items
  return ({ name := fragment.name
            source := (Definition.fragment fragment).toText
            condition := fragment.condition
            possibleTypes := c.schema.possibleTypes fragment.condition
            fields := shape.fields
            spreads := shape.spreads
            cases := shape.cases }, shape.leaves)

def joinSources (fragments : List CompiledFragment) (source : String) (names : List String) :
    Except Error String := do
  let sources ← names.mapM fun name =>
    match fragments.find? (·.name == name) with
    | some fragment => .ok fragment.source
    | none => .error (.compiler (.unknownFragment name))
  return "\n".intercalate (source :: sources)

def operation (c : Compiler) (withId : Bool) (fragments : List CompiledFragment)
    (operation : Operation) : Except Error (CompiledOperation × List String) := do
  match operation.name? with
  | none => throw (.compiler .anonymousOperation)
  | some name =>
    let root ← c.schema.root operation.kind
    let selections := operation.selectionSet.items
    let collection ← c.collectFrom [] root selections
    match collection.branches with
    | branch :: _ => throw (.compiler (.fragmentAtRoot branch.condition name))
    | [] =>
      let referenced ← c.fragmentsReferenced selections
      let source := (Definition.operation operation).toText
      let whole ← joinSources fragments source referenced
      let parameters := operation.parameters.map fun v => (⟨v.name, v.type⟩ : Variable)
      return ({ name, parameters, source
                kind := operation.kind
                rootType := root.name
                fields := collection.target.fields
                fragmentsReferenced := referenced
                sourceWithFragments := whole
                id := if withId then some (sha256 whole) else none },
        parameters.map (·.type.baseName) ++ collection.leaves)

end Compiler

namespace Document

/-- The compiler for a document. Of several fragments of one name the last one counts. -/
def compiler (schema : Schema) (mergeSpreads : Bool) (document : Document) : Compiler :=
  ⟨schema, distinctBy Fragment.name document.fragments, mergeSpreads⟩

def compile (schema : Schema) (options : Options) (document : Document) :
    Except Error Compiled := do
  let c := document.compiler schema options.mergeSpreads
  let fragments ← document.fragments.mapM c.fragment
  let compiledFragments := distinctBy CompiledFragment.name (fragments.map Prod.fst)
  let operations ← document.operations.mapM (c.operation options.operationIds compiledFragments)
  return { schema
           operations := distinctBy CompiledOperation.name (operations.map Prod.fst)
           fragments := compiledFragments
           typesUsed := schema.typesUsed
             (fragments.flatMap Prod.snd ++ operations.flatMap Prod.snd) }

end Document

end QueryTypes
