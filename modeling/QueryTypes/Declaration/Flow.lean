import QueryTypes.Declaration

namespace QueryTypes.Flow

def style : TypeStyle := ⟨⟨"Array<", ">"⟩, ⟨"?", ""⟩⟩

def dialect : Dialect :=
  { banner := "/* @flow */"
    noValues := "empty"
    head := ⟨"export type ", " ="⟩
    body := ⟨" \x7b|", "|\x7d;"⟩ }

def pathName (path : List String) : String := "_".intercalate path

def member (e : Emission) (path : List String) (parent : String) (typenames : Option (List String))
    (field : ResponseField) : Except Error (Member MemberType) := do
  let type ←
    if field.isTypename then pure (e.typenameType parent typenames)
    else if e.isComposite field then do
      let around ← style.around field.type
      pure (.named around [.reference (pathName (path ++ [field.responseName]))])
    else e.leafType style id field.type
  return ⟨Emission.fieldComments field, field.responseName, false, type⟩

def record (e : Emission) (path : List String) (parent : String) (typenames : Option (List String))
    (fields : List ResponseField) : Except Error Declaration := do
  return .record (pathName path) [] (← fields.mapM (member e path parent typenames))

def choice (path : List String) (field : ResponseField) (sets : List PropertySet) : Declaration :=
  .union (pathName path) (sets.map fun set => pathName (path ++ [field.setName set]))

mutual
def nested (e : Emission) (path : List String) :
    List ResponseField → Except Error (List Declaration)
  | [] => .ok []
  | field :: rest => do
    let own ← if e.isComposite field then selection e (path ++ [field.responseName]) field
      else pure []
    return own ++ (← nested e path rest)

def selection (e : Emission) (path : List String) :
    ResponseField → Except Error (List Declaration)
  | ⟨responseName, fieldName, type, description, isConditional, fields, spreads, cases⟩ => do
    let field : ResponseField :=
      ⟨responseName, fieldName, type, description, isConditional, fields, spreads, cases⟩
    let base := type.baseName
    match field.propertySets e.schema with
    | [] => return (← record e path base none fields) :: (← nested e path fields)
    | sets =>
      let inCases ← caseSelections e path field cases
      let others ← if sets.any (·.condition.isNone) then do
          let path := path ++ [base]
          let own ← record e path base (some (field.uncovered e.schema)) fields
          pure (own :: (← nested e path fields))
        else pure []
      return choice path field sets :: (inCases ++ others)

def caseSelections (e : Emission) (path : List String) (field : ResponseField) :
    List (TypeCase ResponseField) → Except Error (List Declaration)
  | [] => .ok []
  | typeCase :: rest => do
    let own ← caseSelection e path field typeCase
    return own ++ (← caseSelections e path field rest)

def caseSelection (e : Emission) (path : List String) (field : ResponseField) :
    TypeCase ResponseField → Except Error (List Declaration)
  | ⟨condition, _, fields, _⟩ => do
    let path := path ++ [condition]
    let typenames := field.typenames e.schema ⟨some condition, fields⟩
    let own ← record e path condition (some typenames) fields
    return own :: (← nested e path fields)
end

def enumDeclaration (type : TypeDefinition) : Declaration :=
  .enum type.name (commentLines type.description) (type.values.map fun value => (none, value.name))

def inputDeclaration (e : Emission) (type : TypeDefinition) : Except Error Declaration := do
  let members ← type.inputFields.mapM fun field => e.inputMember style id [] field.name field.type
  return .record type.name (commentLines type.description) members

def operationDeclarations (e : Emission) (operation : CompiledOperation) :
    Except Error (List Declaration) := do
  let name := operation.name ++ operation.kind.suffix
  let parameters ← if operation.parameters.isEmpty then pure [] else do
    let members ← operation.parameters.mapM fun v => e.inputMember style id [] v.name v.type
    pure [Declaration.record (name ++ "Variables") [] members]
  let root ← record e [name] operation.rootType none operation.fields
  return parameters ++ root :: (← nested e [name] operation.fields)

def fragmentDeclarations (e : Emission) (fragment : CompiledFragment) :
    Except Error (List Declaration) :=
  selection e [fragment.name ++ "Fragment"] fragment.toField

def declarations (e : Emission) : Except Error (List Declaration) := do
  let inputs ← e.inputsUsed.mapM (inputDeclaration e)
  let operations ← e.compiled.operations.mapM (operationDeclarations e)
  let fragments ← e.compiled.fragments.mapM (fragmentDeclarations e)
  return e.enumsUsed.map enumDeclaration ++ inputs ++ operations.flatten ++ fragments.flatten

def source (e : Emission) : Except Error String := do
  return Declaration.source dialect (← declarations e)

end QueryTypes.Flow
