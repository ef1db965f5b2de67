import QueryTypes.Schema

namespace QueryTypes

structure Validation where
  schema : Schema
  /-- The type condition of each fragment. -/
  conditions : List (String × String)
  /-- Whether a selection of the type name is a fault. -/
  addsTypename : Bool

namespace Validation

/-- The type condition of a fragment. Of several fragments of one name the last one counts. -/
def condition? (v : Validation) (fragment : String) : Option String :=
  (v.conditions.reverse.find? (·.1 == fragment)).map Prod.snd

def composite (v : Validation) (name : String) (position : Position) :
    Except Diagnostic TypeDefinition :=
  match v.schema.type? name with
  | none => .error ⟨.unknownType name, position⟩
  | some type => if type.isComposite then .ok type else .error ⟨.notComposite name, position⟩

def overlap (v : Validation) (a b : TypeDefinition) : Bool :=
  (v.schema.possibleTypes a.name).any (v.schema.possibleTypes b.name).contains

/-- A fragment on a composite type that shares no object type with its place is a fault. -/
def spreadFaults (v : Validation) (parent condition : TypeDefinition) (fault : Diagnostic) :
    List Diagnostic :=
  if condition.isComposite && !v.overlap parent condition then [fault] else []

def nameFaults (v : Validation) (head : FieldHead) : List Diagnostic :=
  (if head.label = some typenameField then [⟨.typenameAlias, head.position⟩] else []) ++
    (if v.addsTypename && head.name = typenameField then [⟨.typenameSelected, head.position⟩]
      else [])

def namedSpreadFaults (v : Validation) (parent : TypeDefinition) (spread : FragmentSpread) :
    List Diagnostic :=
  match v.condition? spread.name with
  | none => [⟨.unknownFragment spread.name, spread.position⟩]
  | some name =>
    match v.schema.type? name with
    | none => []
    | some condition =>
      v.spreadFaults parent condition
        ⟨.spreadImpossible spread.name parent.name condition.name, spread.position⟩

mutual
def selectionFaults (v : Validation) (parent : TypeDefinition) : Selection → List Diagnostic
  | .field head _ selections =>
    v.nameFaults head ++
      match v.schema.field? parent head.name with
      | none => [⟨.unknownField head.name parent.name, head.position⟩]
      | some definition =>
        match v.schema.type? definition.type.baseName with
        | none => []
        | some type =>
          if type.isLeaf && !selections.isEmpty then
            [⟨.subfieldsOfLeaf head.name definition.type, head.position⟩]
          else if type.isComposite && selections.isEmpty then
            [⟨.noSubfields head.name definition.type, head.position⟩]
          else if type.isComposite then v.selectionsFaults type selections
          else []
  | .inline head _ selections =>
    match head.condition with
    | none =>
      v.spreadFaults parent parent ⟨.inlineImpossible parent.name parent.name, head.position⟩ ++
        v.selectionsFaults parent selections
    | some name =>
      match v.composite name head.position with
      | .error fault => [fault]
      | .ok condition =>
        v.spreadFaults parent condition
            ⟨.inlineImpossible parent.name condition.name, head.position⟩ ++
          v.selectionsFaults condition selections
  | .spread spread => v.namedSpreadFaults parent spread

def selectionsFaults (v : Validation) (parent : TypeDefinition) : List Selection → List Diagnostic
  | [] => []
  | selection :: rest => v.selectionFaults parent selection ++ v.selectionsFaults parent rest
end

def variableFaults (v : Validation) (definition : VariableDefinition) : List Diagnostic :=
  if (v.schema.type? definition.type.baseName).any TypeDefinition.isInput then []
  else [⟨.nonInputVariable definition.name definition.type, definition.position⟩]

def operationFaults (v : Validation) (earlier : List String) (operation : Operation) :
    List Diagnostic :=
  let nameFaults : List Diagnostic := match operation.name? with
    | none => [⟨.anonymousOperation, operation.position⟩]
    | some name =>
      if earlier.contains name then [⟨.duplicateOperation name, operation.position⟩] else []
  let selectionFaults : List Diagnostic := match v.schema.root operation.kind with
    | .ok root => v.selectionsFaults root operation.selectionSet.items
    | .error _ => [⟨.unsupportedKind operation.kind, operation.position⟩]
  nameFaults ++ operation.parameters.flatMap v.variableFaults ++ selectionFaults

def fragmentFaults (v : Validation) (earlier : List String) (fragment : Fragment) :
    List Diagnostic :=
  (if earlier.contains fragment.name then [⟨.duplicateFragment fragment.name, fragment.position⟩]
    else []) ++
    match v.composite fragment.condition fragment.position with
    | .error fault => [fault]
    | .ok parent => v.selectionsFaults parent fragment.selectionSet.items

def definitionsFaults (v : Validation) (operations fragments : List String) :
    List Definition → List Diagnostic
  | [] => []
  | .operation operation :: rest =>
    v.operationFaults operations operation ++
      v.definitionsFaults (operation.name?.toList ++ operations) fragments rest
  | .fragment fragment :: rest =>
    v.fragmentFaults fragments fragment ++
      v.definitionsFaults operations (fragment.name :: fragments) rest

end Validation

def Document.faults (schema : Schema) (addsTypename : Bool) (document : Document) :
    List Diagnostic :=
  let conditions := document.fragments.map fun f => (f.name, f.condition)
  Validation.definitionsFaults ⟨schema, conditions, addsTypename⟩ [] [] document.definitions

def Document.validate (schema : Schema) (addsTypename : Bool) (document : Document) :
    Except Error Unit :=
  match document.faults schema addsTypename with
  | [] => .ok ()
  | faults => .error (.validation faults)

end QueryTypes
