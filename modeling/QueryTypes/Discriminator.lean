import QueryTypes.Schema

namespace QueryTypes

/-- A plain selection of the type name: without alias and without directives. -/
def Selection.isDiscriminator : Selection → Bool
  | .field head _ _ => head.name == typenameField && head.label.isNone && head.directives.isEmpty
  | _ => false

def Selection.discriminator (position : Position) : Selection :=
  .field ⟨position, none, typenameField, [], []⟩ (.point position) []

namespace Discriminator

/-- Puts the first discriminator to the front, or a new one if there is none. -/
def hoist (position : Position) (selections : List Selection) : List Selection :=
  match selections.find? Selection.isDiscriminator with
  | some found => found :: selections.eraseP Selection.isDiscriminator
  | none => .discriminator position :: selections

/-- Selections on the type `parent`. Only those that are not empty and not at the root of an
    operation get a discriminator. -/
def place (schema : Schema) (parent : Option TypeDefinition) (position : Position)
    (selections : List Selection) : List Selection :=
  if selections.isEmpty || parent.any (schema.isRoot ·.name) then selections
  else hoist position selections

def fieldType? (schema : Schema) (parent : Option TypeDefinition) (name : String) :
    Option TypeDefinition := do
  let definition ← schema.field? (← parent) name
  schema.type? definition.type.baseName

def conditionType? (schema : Schema) (parent : Option TypeDefinition) (head : InlineHead) :
    Option TypeDefinition :=
  match head.condition with
  | some name => schema.type? name
  | none => parent

mutual
def addBelow (schema : Schema) (parent : Option TypeDefinition) : Selection → Selection
  | .field head span selections =>
    let type := fieldType? schema parent head.name
    .field head span (place schema type span.first (addBelowAll schema type selections))
  | .inline head span selections =>
    let type := conditionType? schema parent head
    .inline head span (place schema type span.first (addBelowAll schema type selections))
  | .spread s => .spread s

def addBelowAll (schema : Schema) (parent : Option TypeDefinition) :
    List Selection → List Selection
  | [] => []
  | selection :: rest => addBelow schema parent selection :: addBelowAll schema parent rest
end

def addToSet (schema : Schema) (parent : Option TypeDefinition) (set : SelectionSet) :
    SelectionSet :=
  { set with items := place schema parent set.span.first (addBelowAll schema parent set.items) }

def addToDefinition (schema : Schema) : Definition → Except Error Definition
  | .operation o => do
    let root ← schema.root o.kind
    return .operation { o with selectionSet := addToSet schema (some root) o.selectionSet }
  | .fragment f =>
    let parent := schema.type? f.condition
    .ok (.fragment { f with selectionSet := addToSet schema parent f.selectionSet })

end Discriminator

def Document.withDiscriminators (schema : Schema) (document : Document) :
    Except Error Document := do
  return ⟨← document.definitions.mapM (Discriminator.addToDefinition schema)⟩

end QueryTypes
