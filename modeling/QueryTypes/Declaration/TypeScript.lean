import QueryTypes.Declaration
import QueryTypes.Text.Words

namespace QueryTypes.TypeScript

def style : TypeStyle := ⟨⟨"Array<", ">"⟩, ⟨"", " | null"⟩⟩

def dialect (preferInterfaces : Bool) : Dialect :=
  { banner := "/* tslint:disable */"
    noValues := "never"
    head := if preferInterfaces then ⟨"export interface ", ""⟩ else ⟨"export type ", " ="⟩
    body := ⟨" \x7b", if preferInterfaces then "\x7d" else "\x7d;"⟩ }

def declarationName (e : Emission) (name : String) : String :=
  if e.options.pascalCase then upperCamel name else name

def pathName (e : Emission) (path : List String) : String :=
  declarationName e ("_".intercalate path)

def setNames (e : Emission) (path : List String) (field : ResponseField)
    (sets : List PropertySet) : List String :=
  sets.map fun set => pathName e (path ++ [field.setName set])

mutual
def member (e : Emission) (path : List String) (parent : String)
    (typenames : Option (List String)) : ResponseField → Except Error (Member MemberType)
  | ⟨responseName, fieldName, type, description, isConditional, fields, spreads, cases⟩ => do
    let field : ResponseField :=
      ⟨responseName, fieldName, type, description, isConditional, fields, spreads, cases⟩
    let path := path ++ [responseName]
    let type ←
      if field.isTypename then pure (e.typenameType parent typenames)
      else if !e.isComposite field then e.leafType style (declarationName e) type
      else do
        let around ← style.around type
        match field.propertySets e.schema with
        | [] => pure (.object around (← members e path type.baseName none fields))
        | sets => pure (.named around ((setNames e path field sets).map .reference))
    return ⟨Emission.fieldComments field, responseName, false, type⟩

def members (e : Emission) (path : List String) (parent : String)
    (typenames : Option (List String)) :
    List ResponseField → Except Error (List (Member MemberType))
  | [] => .ok []
  | field :: rest => do
    let own ← member e path parent typenames field
    return own :: (← members e path parent typenames rest)
end

def record (e : Emission) (path : List String) (parent : String)
    (typenames : Option (List String)) (fields : List ResponseField) :
    Except Error Declaration := do
  return .record (pathName e path) [] (← members e path parent typenames fields)

mutual
/-- The declarations of the shapes of all fields below the end of a path, the inner ones first. -/
def nested (e : Emission) (path : List String) :
    List ResponseField → Except Error (List Declaration)
  | [] => .ok []
  | field :: rest => do
    let own ← if e.isComposite field then shapes e (path ++ [field.responseName]) field else pure []
    return own ++ (← nested e path rest)

def shapes (e : Emission) (path : List String) : ResponseField → Except Error (List Declaration)
  | ⟨responseName, fieldName, type, description, isConditional, fields, spreads, cases⟩ => do
    let field : ResponseField :=
      ⟨responseName, fieldName, type, description, isConditional, fields, spreads, cases⟩
    match field.propertySets e.schema with
    | [] => nested e path fields
    | sets =>
      let inCases ← caseShapes e path field cases
      let others ← if sets.any (·.condition.isNone) then do
          let path := path ++ [type.baseName]
          let below ← nested e path fields
          pure (below ++
            [← record e path type.baseName (some (field.uncovered e.schema)) fields])
        else pure []
      return inCases ++ others

def caseShapes (e : Emission) (path : List String) (field : ResponseField) :
    List (TypeCase ResponseField) → Except Error (List Declaration)
  | [] => .ok []
  | typeCase :: rest => do
    let own ← caseShape e path field typeCase
    return own ++ (← caseShapes e path field rest)

def caseShape (e : Emission) (path : List String) (field : ResponseField) :
    TypeCase ResponseField → Except Error (List Declaration)
  | ⟨condition, _, fields, _⟩ => do
    let path := path ++ [condition]
    let typenames := field.typenames e.schema ⟨some condition, fields⟩
    let below ← nested e path fields
    return below ++ [← record e path condition (some typenames) fields]
end

def enumDeclaration (e : Emission) (type : TypeDefinition) : Declaration :=
  .enum (declarationName e type.name) (commentLines type.description)
    (type.values.map fun value => (value.description.map trim, value.name))

def inputDeclaration (e : Emission) (type : TypeDefinition) : Except Error Declaration := do
  let members ← type.inputFields.mapM fun field =>
    e.inputMember style (declarationName e) (commentLines field.description) field.name field.type
  return .record (declarationName e type.name) (commentLines type.description) members

def operationDeclarations (e : Emission) (operation : CompiledOperation) :
    Except Error (List Declaration) := do
  let name := operation.name ++ operation.kind.suffix
  let parameters ← if operation.parameters.isEmpty then pure [] else do
    let members ← operation.parameters.mapM fun v =>
      e.inputMember style (declarationName e) [] v.name v.type
    pure [Declaration.record (declarationName e (name ++ "Variables")) [] members]
  let below ← nested e [name] operation.fields
  return parameters ++ below ++ [← record e [name] operation.rootType none operation.fields]

def fragmentDeclarations (e : Emission) (fragment : CompiledFragment) :
    Except Error (List Declaration) := do
  let path := [fragment.name ++ "Fragment"]
  let field := fragment.toField
  let below ← shapes e path field
  match field.propertySets e.schema with
  | [] => return below ++ [← record e path fragment.condition none fragment.fields]
  | sets => return below ++ [.union (pathName e path) (setNames e path field sets)]

def rootDefinition? (e : Emission) (kind : OperationKind) (name : String) :
    Except Error (Option FieldDefinition) := do
  match ← e.schema.rootField? name with
  | some found =>
    if found.kind = kind then return some found.field
    else return (← e.schema.root kind).field? name
  | none => return (← e.schema.root kind).field? name

def method? (e : Emission) (operation : CompiledOperation) : Except Error (Option Method) := do
  match operation.fields.head? with
  | none => return none
  | some root =>
    match ← rootDefinition? e operation.kind root.fieldName with
    | none => return none
    | some definition =>
      let parameters ← definition.arguments.mapM fun argument => do
        return (argument.name, ← e.leafType style (declarationName e) argument.type)
      return some ⟨definition.name, parameters,
        declarationName e (operation.name ++ operation.kind.suffix), root.responseName⟩

def methodDeclarations (e : Emission) (kind : OperationKind) :
    Except Error (List Declaration) := do
  let operations := e.compiled.operations.filter (·.kind == kind)
  if operations.isEmpty then return []
  let methods ← operations.mapM (method? e)
  return [.methods (kind.suffix ++ "Operations") (methods.filterMap id)]

def declarations (e : Emission) : Except Error (List Declaration) := do
  let inputs ← e.inputsUsed.mapM (inputDeclaration e)
  let operations ← e.compiled.operations.mapM (operationDeclarations e)
  let fragments ← e.compiled.fragments.mapM (fragmentDeclarations e)
  let methods ← if e.synthesized then
      [OperationKind.query, .mutation, .subscription].mapM (methodDeclarations e)
    else pure []
  return e.enumsUsed.map (enumDeclaration e) ++ inputs ++ operations.flatten ++
    fragments.flatten ++ methods.flatten

def source (e : Emission) : Except Error String := do
  return Declaration.source (dialect e.options.preferInterfaces) (← declarations e)

end QueryTypes.TypeScript
