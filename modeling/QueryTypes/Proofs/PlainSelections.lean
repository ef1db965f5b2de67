import QueryTypes.Proofs.Discriminators
import QueryTypes.Proofs.Emitting
import QueryTypes.Proofs.Settled
import QueryTypes.Proofs.Validity

namespace QueryTypes

structure Schema.HasField (schema : Schema) (parent : TypeDefinition) (head : FieldHead)
    (definition : FieldDefinition) (type : TypeDefinition) : Prop where
  unlabelled : head.label = none
  undirected : head.directives = []
  found : schema.field? parent head.name = some definition
  known : schema.type? definition.type.baseName = some type

/-- A selection of fields that the schema has, down to the leaves. -/
inductive Schema.Plain (schema : Schema) : TypeDefinition → Selection → Prop
  | leaf {parent head span definition type} (field : schema.HasField parent head definition type)
    (isLeaf : type.isLeaf = true) : Plain schema parent (.field head span [])
  | composite {parent head span definition type inner} (field : schema.HasField parent head definition type)
    (hasFields : type.isComposite = true) (filled : inner ≠ [])
    (below : ∀ selection ∈ inner, Plain schema type selection) :
    Plain schema parent (.field head span inner)

theorem TypeDefinition.not_isComposite_of_isLeaf {type : TypeDefinition}
    (isLeaf : type.isLeaf = true) :
    type.isComposite = false := by
  unfold TypeDefinition.isLeaf at isLeaf
  unfold TypeDefinition.isComposite
  cases body : type.body <;> simp_all

/-- What a field of the type may have below it: nothing if it is a leaf, and else plain selections. -/
def Schema.Completes (schema : Schema) (type : TypeDefinition) (inner : List Selection) : Prop :=
  type.isLeaf = true ∧ inner = [] ∨
    type.isComposite = true ∧ inner ≠ [] ∧ ∀ selection ∈ inner, schema.Plain type selection

namespace Schema

variable {schema : Schema} {parent type : TypeDefinition} {head : FieldHead} {definition : FieldDefinition}
  {selection : Selection} {selections : List Selection}

theorem IsBuiltIn.isLeaf {name : String} (builtIn : schema.IsBuiltIn name) :
    ∃ type, schema.type? name = some type ∧ type.isLeaf = true := by
  obtain ⟨type, found, isScalar⟩ := (Option.any_eq_true _ _).mp builtIn
  refine ⟨type, found, ?_⟩
  revert isScalar
  unfold TypeDefinition.isBuiltInScalar TypeDefinition.isLeaf
  cases type.body <;> simp

theorem HasField.plain (field : schema.HasField parent head definition type) {inner : List Selection}
    (completes : schema.Completes type inner) {span : Span} : schema.Plain parent (.field head span inner) := by
  rcases completes with ⟨isLeaf, rfl⟩ | ⟨hasFields, filled, below⟩
  · exact .leaf field isLeaf
  · exact .composite field hasFields filled below

section Discriminators

theorem plain_typename (scalar : schema.IsBuiltIn "String") (hasFields : parent.isComposite = true)
    {head : FieldHead} (named : head.name = typenameField) (unlabelled : head.label = none)
    (undirected : head.directives = []) {span : Span} : schema.Plain parent (.field head span []) := by
  obtain ⟨type, known, isLeaf⟩ := scalar.isLeaf
  have found : schema.field? parent head.name = some .typenameMeta := by
    rw [named]
    exact field?_typename hasFields
  exact .leaf ⟨unlabelled, undirected, found, known⟩ isLeaf

theorem plain_place (scalar : schema.IsBuiltIn "String") (hasFields : parent.isComposite = true)
    {position : Position} (each : ∀ selection ∈ selections, schema.Plain parent selection) :
    ∀ selection ∈ Discriminator.place schema (some parent) position selections, schema.Plain parent selection := by
  intro selection member
  unfold Discriminator.place at member
  split at member
  · exact each selection member
  · rcases Discriminator.mem_hoist member with member | rfl
    · exact each selection member
    · exact plain_typename scalar hasFields rfl rfl rfl

theorem HasField.fieldType? (field : schema.HasField parent head definition type) :
    Discriminator.fieldType? schema (some parent) head.name = some type := by
  simp [Discriminator.fieldType?, field.found, field.known]

theorem Plain.addBelow (scalar : schema.IsBuiltIn "String") (plain : schema.Plain parent selection) :
    schema.Plain parent (Discriminator.addBelow schema (some parent) selection) := by
  induction plain with
  | leaf field isLeaf =>
    rw [Discriminator.addBelow, Discriminator.addBelowAll]
    exact .leaf field isLeaf
  | composite field hasFields filled below ih =>
    rw [Discriminator.addBelow, field.fieldType?, Discriminator.addBelowAll_eq]
    refine .composite field hasFields (Discriminator.place_ne_nil (by simpa using filled)) (plain_place scalar hasFields ?_)
    intro selection member
    obtain ⟨earlier, inInner, rfl⟩ := List.mem_map.mp member
    exact ih earlier inInner

end Discriminators

section Faults

variable {v : Validation}

theorem selectionsFaults_eq_nil
    (each : ∀ selection ∈ selections, v.selectionFaults parent selection = []) :
    v.selectionsFaults parent selections = [] := by
  induction selections with
  | nil => rfl
  | cons selection rest ih =>
    rw [List.forall_mem_cons] at each
    rw [Validation.selectionsFaults, each.1, ih each.2, List.append_nil]

theorem Plain.faultless (allowed : v.addsTypename = false) (plain : v.schema.Plain parent selection) :
    v.selectionFaults parent selection = [] := by
  have noNameFaults {head : FieldHead} (unlabelled : head.label = none) : v.nameFaults head = [] := by
    simp [Validation.nameFaults, unlabelled, allowed]
  induction plain with
  | leaf field isLeaf =>
    have simple := TypeDefinition.not_isComposite_of_isLeaf isLeaf
    simp [Validation.selectionFaults, noNameFaults field.unlabelled, field.found, field.known, simple]
  | composite field hasFields filled below ih =>
    rename_i type inner
    have notLeaf : type.isLeaf = false := by
      cases isLeaf : type.isLeaf with
      | false => rfl
      | true =>
        rw [TypeDefinition.not_isComposite_of_isLeaf isLeaf] at hasFields
        cases hasFields
    have some : inner.isEmpty = false := by simpa using filled
    simp [Validation.selectionFaults, noNameFaults field.unlabelled, field.found, field.known, notLeaf, hasFields,
      some, selectionsFaults_eq_nil ih]

end Faults

section Compiling

variable {c : Compiler}

theorem spreadNamesAll_eq_nil (each : ∀ selection ∈ selections, selection.spreadNames = []) :
    Selection.spreadNamesAll selections = [] := by
  induction selections with
  | nil => rfl
  | cons selection rest ih =>
    rw [List.forall_mem_cons] at each
    rw [Selection.spreadNamesAll, each.1, ih each.2, List.append_nil]

theorem Plain.spreadNames (plain : schema.Plain parent selection) : selection.spreadNames = [] := by
  induction plain with
  | leaf field isLeaf => rfl
  | composite field hasFields filled below ih => rw [Selection.spreadNames, spreadNamesAll_eq_nil ih]

theorem HasField.fieldType (field : c.schema.HasField parent head definition type) :
    c.fieldType parent head.name = .ok (definition, type) := by
  unfold Compiler.fieldType Compiler.type
  rw [field.found]
  dsimp only
  rw [field.known]
  rfl

/-- The selection can be collected in front of others, and opens no branch. -/
def Advances (c : Compiler) (parent : TypeDefinition) (selection : Selection) : Prop :=
  ∀ stack conditional s, ∃ middle : Collection, middle.branches = s.branches ∧ ∀ rest s',
    c.Run stack parent conditional rest middle s' → c.Run stack parent conditional (selection :: rest) s s'

theorem exists_run_of_advances (each : ∀ selection ∈ selections, Advances c parent selection) (stack : List String)
    (conditional : Bool) (s : Collection) :
    ∃ s', c.Run stack parent conditional selections s s' ∧ s'.branches = s.branches := by
  induction selections generalizing s with
  | nil => exact ⟨s, .nil, rfl⟩
  | cons selection rest ih =>
    rw [List.forall_mem_cons] at each
    obtain ⟨middle, kept, advance⟩ := each.1 stack conditional s
    obtain ⟨s', run, same⟩ := ih each.2 middle
    exact ⟨s', advance rest s' run, same.trans kept⟩

theorem Plain.advances (plain : c.schema.Plain parent selection) : Advances c parent selection := by
  induction plain with
  | leaf field isLeaf =>
    intro stack conditional s
    have simple := TypeDefinition.not_isComposite_of_isLeaf isLeaf
    refine ⟨_, ?_, fun rest s' after => .leaf field.fieldType simple after⟩
    rfl
  | composite field hasFields filled below ih =>
    intro stack conditional s
    obtain ⟨inside, run, _⟩ := exists_run_of_advances ih stack false {}
    refine ⟨_, ?_, fun rest s' after => .composite field.fieldType hasFields run after⟩
    rfl

end Compiling

structure PlainOperation (schema : Schema) (operation : Operation) : Prop where
  named : ∃ name, operation.name? = some name
  items : ∃ root, schema.root operation.kind = .ok root ∧ root.isComposite = true ∧
    ∀ selection ∈ operation.selectionSet.items, schema.Plain root selection
  parameters : ∀ v ∈ operation.parameters,
    (schema.type? v.type.baseName).any TypeDefinition.isInput = true ∧ v.type.hasDoubleNonNull = false

theorem PlainOperation.decorate (scalar : schema.IsBuiltIn "String") {operation : Operation}
    (plain : schema.PlainOperation operation) :
    schema.PlainOperation (Discriminator.decorateOperation schema operation) := by
  obtain ⟨root, starts, hasFields, each⟩ := plain.items
  refine ⟨plain.named, ⟨root, starts, hasFields, ?_⟩, plain.parameters⟩
  have items : (Discriminator.decorateOperation schema operation).selectionSet.items =
      Discriminator.place schema (some root) operation.selectionSet.span.first
        (operation.selectionSet.items.map (Discriminator.addBelow schema (some root))) := by
    simp only [Discriminator.decorateOperation, Discriminator.addToSet, starts, Except.toOption, Discriminator.addBelowAll_eq]
  rw [items]
  apply plain_place scalar hasFields
  intro selection member
  obtain ⟨earlier, listed, rfl⟩ := List.mem_map.mp member
  exact (each earlier listed).addBelow scalar

theorem PlainOperation.faultless {v : Validation} (allowed : v.addsTypename = false) {operation : Operation}
    (plain : v.schema.PlainOperation operation) {earlier : List String}
    (fresh : ∀ name ∈ operation.name?, name ∉ earlier) : v.operationFaults earlier operation = [] := by
  obtain ⟨name, named⟩ := plain.named
  obtain ⟨root, starts, _, each⟩ := plain.items
  have parameters : operation.parameters.flatMap v.variableFaults = [] := by
    rw [List.flatMap_eq_nil_iff]
    intro definition member
    rw [Validation.variableFaults, if_pos (plain.parameters definition member).1]
  have selected := selectionsFaults_eq_nil fun selection member => (each selection member).faultless allowed
  have unused : name ∉ earlier := fresh name named
  simp [Validation.operationFaults, named, parameters, starts, selected, unused]

end Schema

namespace Document

def ofOperations (operations : List Operation) : Document := ⟨operations.map .operation⟩

variable {schema : Schema} {operations : List Operation}

@[simp] theorem operations_ofOperations : (ofOperations operations).operations = operations := by
  unfold ofOperations Document.operations
  rw [List.filterMap_map]
  exact List.filterMap_some

@[simp] theorem fragments_ofOperations : (ofOperations operations).fragments = [] := by
  unfold ofOperations Document.fragments
  rw [List.filterMap_map]
  exact List.filterMap_eq_nil_iff.mpr fun _ _ => rfl

theorem withDiscriminators_ofOperations (each : ∀ operation ∈ operations, schema.PlainOperation operation) :
    (ofOperations operations).withDiscriminators schema =
      .ok (ofOperations (operations.map (Discriminator.decorateOperation schema))) := by
  have done : (ofOperations operations).definitions.mapM (Discriminator.addToDefinition schema) =
      .ok ((ofOperations operations).definitions.map (Discriminator.decorate schema)) := by
    apply mapM_eq_map
    intro definition member
    obtain ⟨operation, listed, rfl⟩ := List.mem_map.mp member
    obtain ⟨root, starts, _⟩ := (each operation listed).items
    simp only [Discriminator.addToDefinition, Discriminator.decorate, Discriminator.decorateOperation, starts]
    rfl
  rw [withDiscriminators, done]
  simp only [ofOperations, List.map_map]
  rfl

theorem definitionsFaults_ofOperations {v : Validation} (allowed : v.addsTypename = false)
    (each : ∀ operation ∈ operations, v.schema.PlainOperation operation) {earlier : List String}
    (distinct : (operations.map Operation.name?).Nodup)
    (fresh : ∀ operation ∈ operations, ∀ name ∈ operation.name?, name ∉ earlier) :
    v.definitionsFaults earlier [] (operations.map .operation) = [] := by
  induction operations generalizing earlier with
  | nil => rfl
  | cons operation rest ih =>
    rw [List.forall_mem_cons] at each fresh
    rw [List.map_cons, List.nodup_cons] at distinct
    rw [List.map_cons, Validation.definitionsFaults, each.1.faultless allowed fresh.1, List.nil_append]
    apply ih each.2 distinct.2
    intro other member name named used
    rcases List.mem_append.mp used with same | used
    · have both : operation.name? = other.name? := by
        rw [Option.mem_def.mp named]
        simpa using same
      exact distinct.1 (both ▸ List.mem_map_of_mem member)
    · exact fresh.2 other member name named used

theorem validate_ofOperations (each : ∀ operation ∈ operations, schema.PlainOperation operation)
    (distinct : (operations.map Operation.name?).Nodup) :
    (ofOperations operations).validate schema false = .ok () := by
  have none : (ofOperations operations).faults schema false = [] :=
    definitionsFaults_ofOperations rfl each distinct fun _ _ _ _ => List.not_mem_nil
  rw [validate, none]

/-- Plain operations can be compiled, whatever the options are. -/
theorem compile_ofOperations (each : ∀ operation ∈ operations, schema.PlainOperation operation)
    (options : Options) : ∃ compiled, (ofOperations operations).compile schema options = .ok compiled := by
  have all : Succeeds (operations.mapM (((ofOperations operations).compiler schema options.mergeSpreads).operation
      options.operationIds [])) := by
    apply Succeeds.mapM
    intro operation member
    obtain ⟨name, named⟩ := (each operation member).named
    obtain ⟨root, starts, _, plain⟩ := (each operation member).items
    obtain ⟨s, run, noBranches⟩ := Schema.exists_run_of_advances
      (c := (ofOperations operations).compiler schema options.mergeSpreads)
      (fun selection listed => (plain selection listed).advances) [] false {}
    have noSpreads := Schema.spreadNamesAll_eq_nil fun selection listed => (plain selection listed).spreadNames
    obtain ⟨result, done, _⟩ := Compiler.operation_of_run named starts run noBranches noSpreads
      options.operationIds []
    exact succeeds_iff.mpr ⟨result, done⟩
  unfold compile
  simp only [fragments_ofOperations, operations_ofOperations, List.mapM_nil]
  exact succeeds_iff.mp (all.map _)

end Document

end QueryTypes
