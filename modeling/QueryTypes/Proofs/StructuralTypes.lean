import QueryTypes.Generation
import QueryTypes.Proofs.Decoding

namespace QueryTypes

section Gather

variable {ε α β γ : Type} {make : α → Except ε (List β)} {xs : List α} {ys : List β}

def gather (make : α → Except ε (List β)) (xs : List α) : Except ε (List β) := do
  return (← xs.mapM make).flatten

theorem gather_cons (make : α → Except ε (List β)) (x : α) (xs : List α) :
    gather make (x :: xs) = do
      let own ← make x
      return own ++ (← gather make xs) := by
  unfold gather
  rw [List.mapM_cons]
  simp only [bind_assoc, pure_bind, List.flatten_cons]

theorem eq_gather (whole : List α → Except ε (List β)) (empty : whole [] = .ok [])
    (step : ∀ x xs, whole (x :: xs) = do
      let own ← make x
      return own ++ (← whole xs)) (xs : List α) : whole xs = gather make xs := by
  induction xs with
  | nil => exact empty
  | cons x xs ih => rw [step, gather_cons, ih]

theorem gather_eq_ok (ok : gather make xs = .ok ys) :
    ∃ lists, xs.mapM make = .ok lists ∧ ys = lists.flatten := by
  obtain ⟨lists, made, ok⟩ := bind_eq_ok.mp ok
  exact ⟨lists, made, (Except.ok.inj ok).symm⟩

theorem exists_infix_of_gather (ok : gather make xs = .ok ys) {x : α} (member : x ∈ xs) :
    ∃ part, make x = .ok part ∧ part <:+: ys := by
  obtain ⟨lists, made, rfl⟩ := gather_eq_ok ok
  obtain ⟨part, listed, ofX⟩ := exists_of_mapM made member
  exact ⟨part, ofX, List.infix_of_mem_flatten listed⟩

/-- A view of all that is made, if it is known for what each element is made to. -/
theorem map_of_gather {view : β → γ} {shown : α → List γ}
    (each : ∀ x ∈ xs, ∀ part, make x = .ok part → part.map view = shown x) (ok : gather make xs = .ok ys) :
    ys.map view = xs.flatMap shown := by
  induction xs generalizing ys with
  | nil =>
    cases ok
    rfl
  | cons x xs ih =>
    rw [List.forall_mem_cons] at each
    rw [gather_cons] at ok
    obtain ⟨own, first, ok⟩ := bind_eq_ok.mp ok
    obtain ⟨others, rest, ok⟩ := bind_eq_ok.mp ok
    cases ok
    rw [List.map_append, each.1 own first, ih each.2 rest, List.flatMap_cons]

end Gather

namespace Emission

/-- What declares the fields of a type at the end of a path. The names are those that `__typename` may have, if
    they are not all that the type has. -/
abbrev Grouping : Type :=
  List String → String → Option (List String) → List ResponseField → Except Error (List Declaration)

def nestedWith (e : Emission) (declare : List String → ResponseField → Except Error (List Declaration))
    (path : List String) (fields : List ResponseField) : Except Error (List Declaration) :=
  gather (fun field => if e.isComposite field then declare (path ++ [field.responseName]) field else pure []) fields

def otherWith (e : Emission) (group : Grouping) (path : List String) (field : ResponseField) :
    Except Error (List Declaration) :=
  if (field.propertySets e.schema).any (·.condition.isNone) then
    group (path ++ [field.type.baseName]) field.type.baseName (some (field.uncovered e.schema)) field.fields
  else pure []

def shapesWith (e : Emission) (group : Grouping) (path : List String) (field : ResponseField) :
    Except Error (List Declaration) := do
  let inCases ← gather (fun typeCase => group (path ++ [typeCase.condition]) typeCase.condition
    (some (field.typenames e.schema typeCase.shape)) typeCase.fields) field.cases
  return inCases ++ (← e.otherWith group path field)

def variableRecords (e : Emission) (style : TypeStyle) (rename : String → String)
    (operation : CompiledOperation) : Except Error (List Declaration) :=
  if operation.parameters.isEmpty then pure [] else do
    let members ← operation.parameters.mapM fun v => e.inputMember style rename [] v.name v.type
    return [.record (rename (operation.name ++ operation.kind.suffix ++ "Variables")) [] members]

def operationWith (e : Emission) (style : TypeStyle) (rename : String → String) (group : Grouping)
    (operation : CompiledOperation) : Except Error (List Declaration) := do
  let parameters ← e.variableRecords style rename operation
  let name := operation.name ++ operation.kind.suffix
  return parameters ++ (← group [name] operation.rootType none operation.fields)

def inputRecord (e : Emission) (style : TypeStyle) (rename : String → String)
    (comments : InputValue → List String) (type : TypeDefinition) : Except Error Declaration := do
  let members ← type.inputFields.mapM fun field =>
    e.inputMember style rename (comments field) field.name field.type
  return .record (rename type.name) (commentLines type.description) members

def enumOf (rename : String → String) (comment : EnumValue → Option String) (type : TypeDefinition) : Declaration :=
  .enum (rename type.name) (commentLines type.description) (type.values.map fun value => (comment value, value.name))

/-- The parts in which languages of structural types differ when they declare what is compiled. -/
structure Plan where
  style : TypeStyle
  rename : String → String
  ofValue : EnumValue → Option String
  ofInput : InputValue → List String
  group : Grouping
  fragment : CompiledFragment → Except Error (List Declaration)

def declareAll (e : Emission) (plan : Plan) : Except Error (List Declaration) := do
  let inputs ← e.inputsUsed.mapM (e.inputRecord plan.style plan.rename plan.ofInput)
  let operations ← gather (e.operationWith plan.style plan.rename plan.group) e.compiled.operations
  let fragments ← gather plan.fragment e.compiled.fragments
  return e.enumsUsed.map (enumOf plan.rename plan.ofValue) ++ inputs ++ operations ++ fragments

variable {e : Emission} {plan : Plan} {declared : List Declaration}

theorem declareAll_eq_ok (ok : e.declareAll plan = .ok declared) :
    ∃ inputs operations fragments,
      e.inputsUsed.mapM (e.inputRecord plan.style plan.rename plan.ofInput) = .ok inputs ∧
      gather (e.operationWith plan.style plan.rename plan.group) e.compiled.operations = .ok operations ∧
      gather plan.fragment e.compiled.fragments = .ok fragments ∧
      declared = e.enumsUsed.map (enumOf plan.rename plan.ofValue) ++ inputs ++ operations ++ fragments := by
  obtain ⟨inputs, ofInputs, ok⟩ := bind_eq_ok.mp ok
  obtain ⟨operations, ofOperations, ok⟩ := bind_eq_ok.mp ok
  obtain ⟨fragments, ofFragments, ok⟩ := bind_eq_ok.mp ok
  cases ok
  exact ⟨inputs, operations, fragments, ofInputs, ofOperations, ofFragments, rfl⟩

theorem exists_infix_of_declareAll (ok : e.declareAll plan = .ok declared) {operation : CompiledOperation}
    (member : operation ∈ e.compiled.operations) :
    ∃ block, e.operationWith plan.style plan.rename plan.group operation = .ok block ∧ block <:+: declared := by
  obtain ⟨inputs, operations, fragments, _, ofOperations, _, rfl⟩ := declareAll_eq_ok ok
  obtain ⟨block, made, inside⟩ := exists_infix_of_gather ofOperations member
  exact ⟨block, made, (inside.trans (List.suffix_append _ _).isInfix).trans (List.prefix_append _ _).isInfix⟩

end Emission

variable {e : Emission} {field : ResponseField}

namespace Flow

theorem nested_eq (e : Emission) (path : List String) (fields : List ResponseField) :
    nested e path fields = e.nestedWith (selection e) path fields := by
  refine eq_gather (nested e path) rfl (fun field rest => ?_) fields
  rw [nested]
  cases e.isComposite field <;> rfl

def group (e : Emission) : Emission.Grouping := fun path parent typenames fields => do
  let own ← record e path parent typenames fields
  return own :: (← nested e path fields)

theorem caseSelections_eq (path : List String) (field : ResponseField) (cases : List (TypeCase ResponseField)) :
    caseSelections e path field cases = gather (fun typeCase => group e (path ++ [typeCase.condition])
      typeCase.condition (some (field.typenames e.schema typeCase.shape)) typeCase.fields) cases := by
  refine eq_gather (caseSelections e path field) rfl (fun typeCase rest => ?_) cases
  rw [caseSelections, caseSelection, group]
  simp [TypeCase.shape]

theorem selection_of_uniform (uniform : field.propertySets e.schema = []) (path : List String) :
    selection e path field = group e path field.type.baseName none field.fields := by
  cases field
  rw [selection, uniform, group]

theorem selection_of_shapes (diverges : field.propertySets e.schema ≠ []) (path : List String) :
    selection e path field = do
      return choice path field (field.propertySets e.schema) :: (← e.shapesWith (group e) path field) := by
  cases field
  rw [selection, Emission.shapesWith, Emission.otherWith, ← caseSelections_eq]
  dsimp only [group]
  split
  · contradiction
  · split <;> simp

def plan (e : Emission) : Emission.Plan :=
  ⟨style, id, fun _ => none, fun _ => [], group e, fragmentDeclarations e⟩

theorem operationDeclarations_eq (e : Emission) (operation : CompiledOperation) :
    operationDeclarations e operation = e.operationWith style id (group e) operation := by
  unfold operationDeclarations Emission.operationWith Emission.variableRecords group
  cases operation.parameters.isEmpty <;> simp

theorem declarations_eq (e : Emission) : declarations e = e.declareAll (plan e) := by
  unfold declarations Emission.declareAll gather
  simp only [bind_assoc, pure_bind, funext (operationDeclarations_eq e)]
  rfl

end Flow

namespace TypeScript

def memberType (e : Emission) (path : List String) (parent : String)
    (typenames : Option (List String)) (field : ResponseField) : Except Error MemberType :=
  let path := path ++ [field.responseName]
  if field.isTypename then pure (e.typenameType parent typenames)
  else if !e.isComposite field then e.leafType style (declarationName e) field.type
  else do
    let around ← style.around field.type
    match field.propertySets e.schema with
    | [] => return .object around (← members e path field.type.baseName none field.fields)
    | sets => return .named around ((setNames e path field sets).map .reference)

theorem member_eq (path : List String) (parent : String) (typenames : Option (List String))
    (field : ResponseField) :
    member e path parent typenames field = do
      return ⟨Emission.fieldComments field, field.responseName, false,
        ← memberType e path parent typenames field⟩ := by
  cases field
  rw [member, memberType]
  dsimp only
  split
  · rfl
  · split
    · rfl
    · simp only [bind_assoc]
      congr
      funext around
      generalize ResponseField.propertySets e.schema _ = sets
      cases sets <;> simp

theorem members_eq (path : List String) (parent : String) (typenames : Option (List String))
    (fields : List ResponseField) :
    members e path parent typenames fields = fields.mapM (member e path parent typenames) := by
  induction fields with
  | nil => rfl
  | cons field rest ih => rw [members, List.mapM_cons, ih]

theorem nested_eq (e : Emission) (path : List String) (fields : List ResponseField) :
    nested e path fields = e.nestedWith (shapes e) path fields := by
  refine eq_gather (nested e path) rfl (fun field rest => ?_) fields
  rw [nested]
  cases e.isComposite field <;> rfl

def group (e : Emission) : Emission.Grouping := fun path parent typenames fields => do
  let below ← nested e path fields
  return below ++ [← record e path parent typenames fields]

theorem caseShapes_eq (path : List String) (field : ResponseField) (cases : List (TypeCase ResponseField)) :
    caseShapes e path field cases = gather (fun typeCase => group e (path ++ [typeCase.condition])
      typeCase.condition (some (field.typenames e.schema typeCase.shape)) typeCase.fields) cases := by
  refine eq_gather (caseShapes e path field) rfl (fun typeCase rest => ?_) cases
  rw [caseShapes, caseShape, group]
  simp only [TypeCase.shape]

theorem shapes_of_uniform (uniform : field.propertySets e.schema = []) (path : List String) :
    shapes e path field = nested e path field.fields := by
  cases field
  rw [shapes, uniform]

theorem shapes_of_shapes (diverges : field.propertySets e.schema ≠ []) (path : List String) :
    shapes e path field = e.shapesWith (group e) path field := by
  cases field
  rw [shapes, Emission.shapesWith, Emission.otherWith, ← caseShapes_eq]
  dsimp only [group]
  split
  · contradiction
  · split <;> simp

theorem fragmentDeclarations_of_uniform {fragment : CompiledFragment}
    (uniform : fragment.toField.propertySets e.schema = []) :
    fragmentDeclarations e fragment = group e [fragment.name ++ "Fragment"] fragment.condition none fragment.fields := by
  unfold fragmentDeclarations group
  dsimp only
  rw [shapes_of_uniform uniform, uniform]
  rfl

theorem fragmentDeclarations_of_shapes {fragment : CompiledFragment}
    (diverges : fragment.toField.propertySets e.schema ≠ []) :
    fragmentDeclarations e fragment = do
      let below ← e.shapesWith (group e) [fragment.name ++ "Fragment"] fragment.toField
      return below ++ [.union (pathName e [fragment.name ++ "Fragment"])
        (setNames e [fragment.name ++ "Fragment"] fragment.toField (fragment.toField.propertySets e.schema))] := by
  unfold fragmentDeclarations
  dsimp only
  rw [shapes_of_shapes diverges]
  congr 1
  funext below
  split
  · contradiction
  · rfl

def allMethods (e : Emission) : Except Error (List Declaration) :=
  if e.synthesized then gather (methodDeclarations e) [OperationKind.query, .mutation, .subscription] else pure []

def plan (e : Emission) : Emission.Plan :=
  ⟨style, declarationName e, fun value => value.description.map trim, fun field => commentLines field.description,
    group e, fragmentDeclarations e⟩

theorem operationDeclarations_eq (e : Emission) (operation : CompiledOperation) :
    operationDeclarations e operation = e.operationWith style (declarationName e) (group e) operation := by
  unfold operationDeclarations Emission.operationWith Emission.variableRecords group
  cases operation.parameters.isEmpty <;> simp

theorem declarations_eq (e : Emission) :
    declarations e = do
      let declared ← e.declareAll (plan e)
      return declared ++ (← allMethods e) := by
  unfold declarations Emission.declareAll allMethods gather
  simp only [bind_assoc, pure_bind, funext (operationDeclarations_eq e)]
  cases e.synthesized <;> simp <;> rfl

end TypeScript

end QueryTypes
