import QueryTypes.Proofs.DefaultOperations

namespace QueryTypes

def Schema.InputFields (schema : Schema) : Prop :=
  ∀ type ∈ schema.types, ∀ field ∈ type.inputFields,
    (schema.type? field.type.baseName).any TypeDefinition.isInput = true

instance (schema : Schema) : Decidable schema.InputFields :=
  inferInstanceAs (Decidable (∀ type ∈ schema.types, ∀ field ∈ type.inputFields, _ = true))

def Compiled.Provides (compiled : Compiled) (name : String) : Prop :=
  ∀ type, compiled.schema.type? name = some type →
    type.isComposite = false ∧ (type.isDeclared = true → name ∈ compiled.typesUsed)

def Compiled.ProvidesFor (compiled : Compiled) (field : ResponseField) : Prop :=
  (compiled.schema.type? field.type.baseName).any TypeDefinition.isComposite = true ∨
    compiled.Provides field.type.baseName

/-- All types without subfields that a source shows are provided. -/
structure Emission.Supplied (e : Emission) : Prop where
  fields : ∀ operation ∈ e.compiled.operations, ∀ field ∈ operation.fields, field.Everywhere e.compiled.ProvidesFor
  fragments : ∀ fragment ∈ e.compiled.fragments, fragment.toField.Everywhere e.compiled.ProvidesFor
  parameters : ∀ operation ∈ e.compiled.operations, ∀ v ∈ operation.parameters,
    e.compiled.Provides v.type.baseName
  inputs : ∀ type ∈ e.inputsUsed, ∀ field ∈ type.inputFields, e.compiled.Provides field.type.baseName
  arguments : e.synthesized = true → ∀ kind root, e.schema.root kind = .ok root → ∀ field ∈ root.fields,
    ∀ argument ∈ field.arguments, e.compiled.Provides argument.type.baseName

theorem Schema.not_isComposite_of_isInput {schema : Schema} {name : String}
    (isInput : (schema.type? name).any TypeDefinition.isInput = true) {type : TypeDefinition}
    (found : schema.type? name = some type) : type.isComposite = false := by
  rw [found, Option.any_some] at isInput
  unfold TypeDefinition.isInput at isInput
  unfold TypeDefinition.isComposite
  cases body : type.body <;> simp [body] at isInput ⊢

section Compiled

variable {schema : Schema} {document : Document} {options : Options} {compiled : Compiled}

/-- Types without subfields that are reached are provided. -/
theorem Compiled.provides_of_reached {leaves : List String} (same : compiled.schema = schema)
    (used : compiled.typesUsed = schema.typesUsed leaves) {name : String}
    (reached : name ∈ schema.inputGraph.reach leaves)
    (simple : ∀ type, schema.type? name = some type → type.isComposite = false) : compiled.Provides name := by
  intro type found
  rw [same] at found
  refine ⟨simple type found, fun declared => ?_⟩
  have isDeclared : (schema.type? name).any TypeDefinition.isDeclared = true := by rwa [found]
  rw [used]
  exact List.mem_filter.mpr ⟨reached, isDeclared⟩

/-- The input objects that are reached lead to the types of their fields. -/
theorem Schema.reached_of_inputField {names : List String} {name : String} {type : TypeDefinition}
    (reached : name ∈ schema.inputGraph.reach names) (found : schema.type? name = some type)
    {field : InputValue} (member : field ∈ type.inputFields) :
    field.type.baseName ∈ schema.inputGraph.reach names := by
  refine Graph.next_mem_reach reached ?_
  unfold Schema.inputGraph
  rw [Graph.next_map]
  change field.type.baseName ∈ ((schema.type? name).map _).getD []
  rw [found]
  exact List.mem_map_of_mem member

namespace Document

def parameters (document : Document) : List VariableDefinition :=
  document.operations.flatMap Operation.parameters

theorem isInput_of_validate {adds : Bool} (valid : document.validate schema adds = .ok ())
    {definition : VariableDefinition} (member : definition ∈ document.parameters) :
    (schema.type? definition.type.baseName).any TypeDefinition.isInput = true := by
  obtain ⟨operation, inDocument, listed⟩ := List.mem_flatMap.mp member
  exact Validation.isInput_of_faultless (faultless_of_validate valid) (mem_operations.mp inDocument) listed

theorem parameters_of_withDiscriminators {decorated : Document}
    (added : document.withDiscriminators schema = .ok decorated) : decorated.parameters = document.parameters := by
  unfold parameters
  rw [eq_decorate_of_withDiscriminators added, operations_decorate, List.flatMap_map]
  rfl

theorem parameters_of_prepare {adds : Bool} {prepared : Document}
    (prepares : document.prepare schema adds = .ok prepared) : prepared.parameters = document.parameters := by
  cases adds with
  | false =>
    cases prepares
    rfl
  | true => exact parameters_of_withDiscriminators prepares

/-- The types of all variables are among the types to start from. -/
theorem exists_leaves_of_parameters (done : document.compile schema options = .ok compiled) :
    ∃ leaves, compiled.schema = schema ∧ compiled.typesUsed = schema.typesUsed leaves ∧
      ∀ definition ∈ document.parameters, definition.type.baseName ∈ leaves := by
  obtain ⟨fragments, _, rest⟩ := bind_eq_ok.mp done
  obtain ⟨operations, ofOperations, rest⟩ := bind_eq_ok.mp rest
  cases rest
  refine ⟨_, rfl, rfl, ?_⟩
  intro definition member
  obtain ⟨source, inDocument, listed⟩ := List.mem_flatMap.mp member
  obtain ⟨result, inOperations, ok⟩ := exists_of_mapM ofOperations inDocument
  obtain ⟨root, s, compiles, names⟩ := Compiler.operation_eq_ok_iff.mp ok
  refine List.mem_append_right _ (List.mem_flatMap.mpr ⟨result, inOperations, ?_⟩)
  rw [names, compiles.parameters, List.map_map]
  exact List.mem_append_left _ (List.mem_map_of_mem listed)

theorem provides_parameter (done : document.compile schema options = .ok compiled)
    {definition : VariableDefinition} (member : definition ∈ document.parameters)
    (isInput : (schema.type? definition.type.baseName).any TypeDefinition.isInput = true) :
    compiled.Provides definition.type.baseName := by
  obtain ⟨leaves, same, used, listed⟩ := exists_leaves_of_parameters done
  have reached : definition.type.baseName ∈ schema.inputGraph.reach leaves :=
    Graph.mem_reach_of_mem (listed definition member)
  exact Compiled.provides_of_reached same used reached fun _ => Schema.not_isComposite_of_isInput isInput

end Document

theorem Compiled.provides_inputField (done : document.compile schema options = .ok compiled)
    (inputs : schema.InputFields) {name : String} (used : name ∈ compiled.typesUsed) {type : TypeDefinition}
    (found : compiled.schema.type? name = some type) {field : InputValue} (member : field ∈ type.inputFields) :
    compiled.Provides field.type.baseName := by
  obtain ⟨leaves, same, names, _⟩ := document.exists_leaves done
  rw [same] at found
  rw [names] at used
  have reached := Schema.reached_of_inputField (List.mem_of_mem_filter used) found member
  have isInput := inputs type (Schema.mem_of_type? found) field member
  exact Compiled.provides_of_reached same names reached fun _ => Schema.not_isComposite_of_isInput isInput

/-- Fields that are selected are provided for, at every depth. -/
theorem Compiler.Run.providesFor {c : Compiler} {root : TypeDefinition} {start : List Selection} {stack : List String}
    {conditional : Bool} {s : Collection} (run : c.Run stack root conditional start {} s) {leaves : List String}
    (same : compiled.schema = c.schema) (used : compiled.typesUsed = c.schema.typesUsed leaves)
    (kept : s.leaves ⊆ leaves) : s.Everywhere compiled.ProvidesFor := by
  have absorbing : ResponseField.Absorbing compiled.ProvidesFor := fun _ _ _ own _ => own
  refine run.everywhere absorbing ?_ ?_ kept
  · intro above head inner definition type conditional _ looked simple known
    have found := (Compiler.type?_of_fieldType looked).2
    rw [Schema.name_of_type? found] at known
    refine .inr (Compiled.provides_of_reached same used (Graph.mem_reach_of_mem known) ?_)
    intro other also
    cases found.symm.trans also
    exact simple
  · intro above head inner definition type conditional _ below _ looked hasFields _
    left
    change (compiled.schema.type? definition.type.baseName).any TypeDefinition.isComposite = true
    rw [same, (Compiler.type?_of_fieldType looked).2]
    exact hasFields

theorem Compiled.providesFor_operation (done : document.compile schema options = .ok compiled)
    {operation : CompiledOperation} (member : operation ∈ compiled.operations) :
    ∀ field ∈ operation.fields, field.Everywhere compiled.ProvidesFor := by
  obtain ⟨leaves, same, used, ofOperations, _⟩ := document.exists_leaves done
  obtain ⟨source, _, root, s, compiles, kept⟩ := ofOperations operation member
  have all : s.Everywhere compiled.ProvidesFor :=
    compiles.run.providesFor same used fun name inLeaves => kept (List.mem_append_right _ inLeaves)
  rw [compiles.fields]
  exact all none

theorem Compiled.providesFor_fragment (done : document.compile schema options = .ok compiled)
    {fragment : CompiledFragment} (member : fragment ∈ compiled.fragments) :
    fragment.toField.Everywhere compiled.ProvidesFor := by
  obtain ⟨leaves, same, used, _, ofFragments⟩ := document.exists_leaves done
  obtain ⟨source, _, type, s, compiles, kept⟩ := ofFragments fragment member
  have absorbing : ResponseField.Absorbing compiled.ProvidesFor := fun _ _ _ own _ => own
  refine compiles.everywhere absorbing (.inl ?_) (compiles.run.providesFor same used kept)
  change (compiled.schema.type? fragment.condition).any TypeDefinition.isComposite = true
  rw [same, compiles.condition]
  change ((document.compiler schema options.mergeSpreads).schema.type? source.condition).any _ = true
  rw [compiles.found]
  exact compiles.hasFields

end Compiled

/-- The arguments of root fields are variables of the default operations. -/
theorem Schema.exists_parameter_of_argument {schema : Schema} (readable : schema.Readable) {document : Document}
    (made : schema.defaultDocument = .ok document) {kind : OperationKind} {root : TypeDefinition}
    (starts : schema.root kind = .ok root) {field : FieldDefinition} (member : field ∈ root.fields)
    {argument : InputValue} (listed : argument ∈ field.arguments) :
    ∃ definition ∈ document.parameters, definition.type = argument.type := by
  rw [Schema.defaultDocument_eq] at made
  obtain ⟨documents, done, added⟩ := bind_eq_ok.mp made
  obtain ⟨operations, joined, _, _, all⟩ :=
    Schema.exists_operations_of_mapM readable (List.Subset.refl _) done
  have inFields := Schema.mem_rootFields.mpr ⟨root, starts, member⟩
  rw [← Schema.map_rootOperations] at inFields
  obtain ⟨entry, inOperations, same⟩ := List.mem_map.mp inFields
  cases same
  obtain ⟨operation, inDocument, performs⟩ := all entry inOperations
  have shown : (argument.name, argument.type) ∈ operation.parameters.map fun v => (v.name, v.type) := by
    rw [performs.parameters]
    exact List.mem_map_of_mem (f := fun a : InputValue => (a.name, a.type)) listed
  obtain ⟨definition, inOperation, same⟩ := List.mem_map.mp shown
  refine ⟨definition, ?_, congrArg Prod.snd same⟩
  rw [Document.parameters_of_withDiscriminators added, joined]
  unfold Document.parameters
  rw [Document.operations_ofOperations]
  exact List.mem_flatMap.mpr ⟨operation, inDocument, inOperation⟩

/-- What is compiled of a valid document supplies all types that its source shows. -/
theorem Emission.supplied_of_compile {schema : Schema} (readable : schema.Readable) (inputs : schema.InputFields)
    {document : Option Document} {target : Target} {valid prepared : Document} {adds : Bool} {options : Options}
    {compiled : Compiled} (checked : schema.validDocument document target = .ok valid)
    (prepares : valid.prepare schema adds = .ok prepared)
    (done : prepared.compile schema options = .ok compiled) (shown : Options) :
    Emission.Supplied ⟨compiled, shown, document.isNone⟩ := by
  have provides : ∀ definition ∈ valid.parameters, compiled.Provides definition.type.baseName := by
    intro definition member
    have isInput : (schema.type? definition.type.baseName).any TypeDefinition.isInput = true := by
      cases document with
      | some document =>
        obtain ⟨_, passed, checked⟩ := bind_eq_ok.mp checked
        cases checked
        exact Document.isInput_of_validate passed member
      | none =>
        obtain ⟨_, _, checked⟩ := bind_eq_ok.mp checked
        obtain ⟨_, passed, checked⟩ := bind_eq_ok.mp checked
        cases checked
        exact Document.isInput_of_validate passed member
    rw [← Document.parameters_of_prepare prepares] at member
    exact Document.provides_parameter done member isInput
  refine ⟨?_, ?_, ?_, ?_, ?_⟩
  · exact fun operation member => Compiled.providesFor_operation done member
  · exact fun fragment member => Compiled.providesFor_fragment done member
  · intro operation member v listed
    obtain ⟨leaves, _, _, ofOperations, _⟩ := prepared.exists_leaves done
    obtain ⟨source, inDocument, root, s, compiles, _⟩ := ofOperations operation member
    rw [compiles.parameters] at listed
    obtain ⟨definition, inSource, rfl⟩ := List.mem_map.mp listed
    apply provides definition
    rw [← Document.parameters_of_prepare prepares]
    exact List.mem_flatMap.mpr ⟨source, inDocument, inSource⟩
  · intro type member field listed
    obtain ⟨name, used, found⟩ := List.mem_filterMap.mp (List.mem_of_mem_filter member)
    exact Compiled.provides_inputField done inputs used found listed
  · intro synthesized kind root starts field member argument listed
    cases document with
    | some document => cases synthesized
    | none =>
      obtain ⟨_, made, checked⟩ := bind_eq_ok.mp checked
      obtain ⟨_, _, checked⟩ := bind_eq_ok.mp checked
      cases checked
      obtain ⟨leaves, same, _⟩ := prepared.exists_leaves done
      change compiled.schema.root kind = .ok root at starts
      rw [same] at starts
      obtain ⟨definition, inDocument, typed⟩ :=
        Schema.exists_parameter_of_argument readable made starts member listed
      rw [← typed]
      exact provides definition inDocument

end QueryTypes
