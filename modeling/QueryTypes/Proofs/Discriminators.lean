import QueryTypes.Proofs.Compilable
import QueryTypes.Proofs.CompiledRuns
import QueryTypes.Proofs.Erasing

namespace QueryTypes

open ResponseField

namespace Discriminator

variable {schema : Schema}

def decorateOperation (schema : Schema) (operation : Operation) : Operation :=
  { operation with
    selectionSet := addToSet schema (schema.root operation.kind).toOption operation.selectionSet }

def decorateFragment (schema : Schema) (fragment : Fragment) : Fragment :=
  { fragment with
    selectionSet := addToSet schema (schema.type? fragment.condition) fragment.selectionSet }

def decorate (schema : Schema) : Definition → Definition
  | .operation operation => .operation (decorateOperation schema operation)
  | .fragment fragment => .fragment (decorateFragment schema fragment)

theorem eq_decorate_of_addToDefinition (definition result : Definition)
    (added : addToDefinition schema definition = .ok result) : result = decorate schema definition := by
  cases definition with
  | fragment fragment =>
    cases added
    rfl
  | operation operation =>
    obtain ⟨root, starts, added⟩ := bind_eq_ok.mp added
    cases added
    simp only [decorate, decorateOperation, starts, Except.toOption]

theorem erase_decorateFragment (schema : Schema) (fragment : Fragment) :
    (decorateFragment schema fragment).erase = fragment.erase := by
  simp only [Fragment.erase, decorateFragment, eraseAll_addToSet]
  rfl

end Discriminator

open Discriminator

namespace Document

variable {schema : Schema} {document decorated : Document}

def decorate (schema : Schema) (document : Document) : Document :=
  ⟨document.definitions.map (Discriminator.decorate schema)⟩

theorem eq_decorate_of_withDiscriminators (added : document.withDiscriminators schema = .ok decorated) :
    decorated = document.decorate schema := by
  obtain ⟨definitions, done, finished⟩ := bind_eq_ok.mp added
  cases finished
  rw [eq_map_of_mapM eq_decorate_of_addToDefinition done]
  rfl

theorem operations_decorate (schema : Schema) (document : Document) :
    (document.decorate schema).operations = document.operations.map (decorateOperation schema) := by
  unfold operations decorate
  rw [List.filterMap_map, List.map_filterMap]
  congr 1
  funext definition
  cases definition <;> rfl

theorem fragments_decorate (schema : Schema) (document : Document) :
    (document.decorate schema).fragments = document.fragments.map (decorateFragment schema) := by
  unfold fragments decorate
  rw [List.filterMap_map, List.map_filterMap]
  congr 1
  funext definition
  cases definition <;> rfl

end Document

/-- The fragment without its text and without discriminators. -/
def CompiledFragment.outline (fragment : CompiledFragment) : CompiledFragment :=
  { fragment with
    source := ""
    fields := pruneAll fragment.fields
    cases := pruneCases fragment.cases }

/-- The operation without its texts and without discriminators. -/
def CompiledOperation.outline (operation : CompiledOperation) : CompiledOperation :=
  { operation with
    source := ""
    fields := pruneAll operation.fields
    fragmentsReferenced := []
    sourceWithFragments := ""
    id := none }

@[simp] theorem CompiledFragment.name_outline (fragment : CompiledFragment) :
    fragment.outline.name = fragment.name := rfl

@[simp] theorem CompiledOperation.name_outline (operation : CompiledOperation) :
    operation.outline.name = operation.name := rfl

def Compiled.outline (compiled : Compiled) :
    List CompiledOperation × List CompiledFragment × List String :=
  (compiled.operations.map CompiledOperation.outline,
    compiled.fragments.map CompiledFragment.outline, compiled.typesUsed)

def outlined {α : Type} (outline : α → α) (result : α × List String) : α × List String :=
  (outline result.1, result.2.filter (· ≠ "String"))

namespace Compiler

variable {c : Compiler}

def decorate (c : Compiler) : Compiler :=
  { c with fragments := c.fragments.map (decorateFragment c.schema) }

theorem erase_decorate (c : Compiler) : c.decorate.erase = c.erase := by
  have same : Fragment.erase ∘ decorateFragment c.schema = Fragment.erase :=
    funext (erase_decorateFragment c.schema)
  simp only [erase, decorate, List.map_map, same]

theorem fragment?_decorate (c : Compiler) (name : String) :
    c.decorate.fragment? name = (c.fragment? name).map (decorateFragment c.schema) := by
  unfold fragment? decorate
  rw [List.find?_map]
  rfl

section References

theorem mem_next_decorate (c : Compiler) (name next : String) :
    next ∈ c.decorate.spreadGraph.next name ↔ next ∈ c.spreadGraph.next name := by
  rw [next_spreadGraph, next_spreadGraph, fragment?_decorate]
  cases c.fragment? name with
  | none => rfl
  | some fragment => exact mem_spreadNamesAll_addToSet ..

/-- Discriminators change nothing about which fragments are needed. -/
theorem mem_reach_decorate (c : Compiler) (parent : Option TypeDefinition) (set : SelectionSet)
    (name : String) :
    name ∈ c.decorate.spreadGraph.reach
        (Selection.spreadNamesAll (addToSet c.schema parent set).items) ↔
      name ∈ c.spreadGraph.reach (Selection.spreadNamesAll set.items) := by
  constructor
  · intro reached
    apply Graph.reach_subset _ _ reached
    · intro name spread
      exact (mem_spreadNamesAll_addToSet ..).mp spread
    · intro name next edge
      exact (mem_next_decorate c name next).mp edge
  · intro reached
    apply Graph.reach_subset _ _ reached
    · intro name spread
      exact (mem_spreadNamesAll_addToSet ..).mpr spread
    · intro name next edge
      exact (mem_next_decorate c name next).mpr edge

theorem observed_fragmentsReferenced (c : Compiler) (parent : Option TypeDefinition)
    (set : SelectionSet) :
    observed (fun _ => ()) (c.fragmentsReferenced set.items) =
      observed (fun _ => ()) (c.decorate.fragmentsReferenced (addToSet c.schema parent set).items) := by
  have known (name : String) : (c.decorate.fragment? name).isSome = (c.fragment? name).isSome := by
    rw [fragment?_decorate, Option.isSome_map]
  apply observed_unit_of_iff
  simp only [fragmentsReferenced_eq_ok_iff, exists_eq_left, mem_reach_decorate, known]

theorem observed_joinSources {fragments : List CompiledFragment} {names : List String}
    (listed : ∀ name ∈ names, name ∈ fragments.map CompiledFragment.name) (source : String) :
    observed (fun _ => ()) (joinSources fragments source names) = some () := by
  have never : FailsOnly (fun _ => False) (joinSources fragments source names) :=
    failsOnly_joinSources listed source
  cases joined : joinSources fragments source names with
  | ok whole => rfl
  | error fault => exact (never fault joined).elim

end References

theorem observed_fragment (scalar : c.schema.IsBuiltIn "String") (fragment : Fragment) :
    observed (outlined CompiledFragment.outline) (c.fragment fragment) =
      observed (outlined CompiledFragment.outline)
        (c.decorate.fragment (decorateFragment c.schema fragment)) := by
  have composites : c.decorate.composite (decorateFragment c.schema fragment).condition =
      c.composite fragment.condition := rfl
  unfold Compiler.fragment
  rw [composites]
  cases resolved : c.composite fragment.condition with
  | error fault => rw [error_bind, error_bind]
  | ok parent =>
    rw [ok_bind, ok_bind]
    have hasFields := (composite_eq_ok.mp resolved).2
    have alike := eraseAll_addToSet c.schema (c.schema.type? fragment.condition) fragment.selectionSet
    have collected := observed_collectFrom (erase_decorate c) scalar alike hasFields [fragment.name]
    have shaped : observed Shape.prune (c.shape [fragment.name] parent fragment.selectionSet.items) =
        observed Shape.prune (c.decorate.shape [fragment.name] parent
          (decorateFragment c.schema fragment).selectionSet.items) := by
      refine observed_bind collected fun s t _ _ same => ?_
      have finished : (c.finish parent s).prune = (c.decorate.finish parent t).prune := by
        rw [prune_finish, prune_finish, same]
        rfl
      exact congrArg some finished
    refine observed_bind shaped fun left right _ _ same => ?_
    have fields : pruneAll left.fields = pruneAll right.fields := congrArg Shape.fields same
    have cases : pruneCases left.cases = pruneCases right.cases := congrArg Shape.cases same
    have spreads : left.spreads = right.spreads := (congrArg Shape.spreads same :)
    have leaves : left.leaves.filter (· ≠ "String") = right.leaves.filter (· ≠ "String") :=
      congrArg Shape.leaves same
    refine congrArg some ?_
    simp only [outlined, CompiledFragment.outline, decorateFragment, decorate, fields, cases, spreads, leaves]

theorem observed_operation (scalar : c.schema.IsBuiltIn "String") {operation : Operation}
    (hasFields : ∀ root, c.schema.root operation.kind = .ok root → root.isComposite = true)
    {fragments others : List CompiledFragment}
    (listed : ∀ name, (c.fragment? name).isSome = true → name ∈ fragments.map CompiledFragment.name)
    (alsoListed : ∀ name, (c.decorate.fragment? name).isSome = true →
      name ∈ others.map CompiledFragment.name) (withId : Bool) :
    observed (outlined CompiledOperation.outline) (c.operation withId fragments operation) =
      observed (outlined CompiledOperation.outline)
        (c.decorate.operation withId others (decorateOperation c.schema operation)) := by
  have named : (decorateOperation c.schema operation).name? = operation.name? := rfl
  have roots : c.decorate.schema.root (decorateOperation c.schema operation).kind =
      c.schema.root operation.kind := rfl
  unfold Compiler.operation
  rw [named]
  cases operation.name? with
  | none => rfl
  | some name =>
    dsimp only
    rw [roots]
    cases starts : c.schema.root operation.kind with
    | error fault => rw [error_bind, error_bind]
    | ok root =>
      rw [ok_bind, ok_bind]
      have alike := eraseAll_addToSet c.schema (c.schema.root operation.kind).toOption operation.selectionSet
      have collected := observed_collectFrom (erase_decorate c) scalar alike (hasFields root starts) []
      refine observed_bind collected fun s t _ _ same => ?_
      -- pruning keeps every branch, so both operations are refused for one or neither is
      have branches : s.branches.map Branch.prune = t.branches.map Branch.prune :=
        congrArg Collection.branches same
      cases inLeft : s.branches with
      | cons first rest =>
        cases inRight : t.branches with
        | cons other tail => rfl
        | nil => simp [inLeft, inRight] at branches
      | nil =>
        cases inRight : t.branches with
        | cons other tail => simp [inLeft, inRight] at branches
        | nil =>
          refine observed_bind (observed_fragmentsReferenced c _ operation.selectionSet) ?_
          intro names reached found foundAlso _
          have known := (fragmentsReferenced_eq_ok_iff.mp found).2
          have knownAlso := (fragmentsReferenced_eq_ok_iff.mp foundAlso).2
          have joined (source text : String) :
              observed (fun _ => ()) (joinSources fragments source names) =
                observed (fun _ => ()) (joinSources others text reached) := by
            rw [observed_joinSources fun name member => listed name (known name member),
              observed_joinSources fun name member => alsoListed name (knownAlso name member)]
          refine observed_bind (joined _ _) fun whole text _ _ _ => ?_
          have fields : pruneAll s.target.fields = pruneAll t.target.fields :=
            congrArg (fun s => s.target.fields) same
          have leaves : s.leaves.filter (· ≠ "String") = t.leaves.filter (· ≠ "String") :=
            congrArg Collection.leaves same
          refine congrArg some ?_
          simp only [outlined, CompiledOperation.outline, decorateOperation, Operation.kind,
            Operation.parameters, fields, List.filter_append, leaves]

end Compiler

namespace Schema

variable {schema : Schema}

theorem next_inputGraph (schema : Schema) (name : String) :
    schema.inputGraph.next name =
      ((schema.type? name).map fun type => type.inputFields.map (·.type.baseName)).getD [] :=
  Graph.next_map TypeDefinition.name
    (fun type => type.inputFields.map fun field : InputValue => field.type.baseName) schema.types name

theorem typesUsed_congr {scalar : String}
    (builtIn : schema.IsBuiltIn scalar) {names others : List String}
    (same : names.filter (· ≠ scalar) = others.filter (· ≠ scalar)) :
    schema.typesUsed names = schema.typesUsed others := by
  obtain ⟨type, found, isBuiltIn⟩ := (Option.any_eq_true _ _).mp builtIn
  have isScalar : type.body = .scalar := by
    unfold TypeDefinition.isBuiltInScalar at isBuiltIn
    revert isBuiltIn
    cases type.body <;> simp
  have isolated : schema.inputGraph.next scalar = [] := by
    simp [next_inputGraph, found, TypeDefinition.inputFields, isScalar]
  have undeclared : (schema.type? scalar).any TypeDefinition.isDeclared = false := by
    simp [found, TypeDefinition.isDeclared, isScalar, isBuiltIn]
  have without (names : List String) :
      schema.typesUsed names = ((schema.inputGraph.reach names).filter (· ≠ scalar)).filter
        fun name => (schema.type? name).any TypeDefinition.isDeclared := by
    unfold typesUsed
    rw [List.filter_filter]
    apply List.filter_congr
    intro name _
    by_cases same : name = scalar
    · subst same
      simp [undeclared]
    · simp [same]
  rw [without, without, Graph.filter_reach isolated, Graph.filter_reach isolated, same]

end Schema

theorem outlines_of_outlined {α : Type} {outline : α → α} {results others : List (α × List String)}
    (same : results.map (outlined outline) = others.map (outlined outline)) :
    (results.map Prod.fst).map outline = (others.map Prod.fst).map outline ∧
      (results.flatMap Prod.snd).filter (· ≠ "String") =
        (others.flatMap Prod.snd).filter (· ≠ "String") := by
  have paired : results.map (Prod.map outline (List.filter (· ≠ "String"))) =
      others.map (Prod.map outline (List.filter (· ≠ "String"))) := same
  rw [List.filter_flatMap, List.filter_flatMap]
  exact parts_of_map_prodMap paired

namespace Document

variable {schema : Schema} (document : Document)

theorem compiler_decorate (schema : Schema) (merges : Bool) :
    (document.decorate schema).compiler schema merges = (document.compiler schema merges).decorate := by
  have kept : ∀ fragment, (decorateFragment schema fragment).name = fragment.name := fun _ => rfl
  simp only [compiler, Compiler.decorate, fragments_decorate, map_distinctBy_map _ kept]

theorem observed_fragments (scalar : schema.IsBuiltIn "String") (merges : Bool) :
    observed (List.map (outlined CompiledFragment.outline))
        (document.fragments.mapM (document.compiler schema merges).fragment) =
      observed (List.map (outlined CompiledFragment.outline))
        ((document.decorate schema).fragments.mapM
          ((document.decorate schema).compiler schema merges).fragment) := by
  rw [compiler_decorate, fragments_decorate, List.mapM_map]
  exact observed_mapM fun fragment _ => Compiler.observed_fragment scalar fragment

theorem observed_operations {items : List SchemaItem} (built : Schema.ofItems items = .ok schema)
    (scalar : schema.IsBuiltIn "String") {merges : Bool}
    {fragments others : List (CompiledFragment × List String)}
    (compiled : document.fragments.mapM (document.compiler schema merges).fragment = .ok fragments)
    (compiledAlso : (document.decorate schema).fragments.mapM
      ((document.decorate schema).compiler schema merges).fragment = .ok others) (withId : Bool) :
    observed (List.map (outlined CompiledOperation.outline))
        (document.operations.mapM ((document.compiler schema merges).operation withId
          (distinctBy CompiledFragment.name (fragments.map Prod.fst)))) =
      observed (List.map (outlined CompiledOperation.outline))
        ((document.decorate schema).operations.mapM
          (((document.decorate schema).compiler schema merges).operation withId
            (distinctBy CompiledFragment.name (others.map Prod.fst)))) := by
  rw [compiler_decorate, operations_decorate, List.mapM_map]
  refine observed_mapM fun operation _ => ?_
  apply Compiler.observed_operation scalar
  · intro root starts
    exact TypeDefinition.isComposite_of_isObject (Schema.isRootType_of_ofItems built starts).isObject
  · intro name known
    obtain ⟨fragment, found⟩ := Option.isSome_iff_exists.mp known
    exact mem_names_of_compiled compiled found
  · intro name known
    rw [← compiler_decorate] at known
    obtain ⟨fragment, found⟩ := Option.isSome_iff_exists.mp known
    exact mem_names_of_compiled compiledAlso found

theorem observed_compile {items : List SchemaItem} (built : Schema.ofItems items = .ok schema)
    (scalar : schema.IsBuiltIn "String") (options : Options) :
    observed Compiled.outline (document.compile schema options) =
      observed Compiled.outline ((document.decorate schema).compile schema options) := by
  unfold compile
  refine observed_bind (document.observed_fragments scalar _) ?_
  intro fragments others compiled compiledAlso alike
  refine observed_bind (document.observed_operations built scalar compiled compiledAlso _) ?_
  intro operations rest _ _ alikeAlso
  obtain ⟨ofFragments, belowFragments⟩ := outlines_of_outlined alike
  obtain ⟨ofOperations, belowOperations⟩ := outlines_of_outlined alikeAlso
  have operationsSame := map_distinctBy_congr _ CompiledOperation.name_outline ofOperations
  have fragmentsSame := map_distinctBy_congr _ CompiledFragment.name_outline ofFragments
  have typesSame : schema.typesUsed (fragments.flatMap Prod.snd ++ operations.flatMap Prod.snd) =
      schema.typesUsed (others.flatMap Prod.snd ++ rest.flatMap Prod.snd) := by
    apply Schema.typesUsed_congr scalar
    rw [List.filter_append, List.filter_append, belowFragments, belowOperations]
  refine congrArg some ?_
  simp only [Compiled.outline, operationsSame, fragmentsSame, typesSame]

end Document

/-- Discriminators that are added to a document change neither whether it is compiled nor what is
    compiled, apart from the texts and from the fields under their key. -/
theorem compile_withDiscriminators {items : List SchemaItem} {schema : Schema}
    (built : Schema.ofItems items = .ok schema)
    (kept : ∀ definition, SchemaItem.type definition ∈ items → definition.name ≠ "String")
    {document decorated : Document} (added : document.withDiscriminators schema = .ok decorated)
    (options : Options) :
    ((∃ compiled, document.compile schema options = .ok compiled) ↔
      ∃ compiled, decorated.compile schema options = .ok compiled) ∧
    ∀ compiled other, document.compile schema options = .ok compiled →
      decorated.compile schema options = .ok other →
      compiled.operations.map CompiledOperation.outline =
        other.operations.map CompiledOperation.outline ∧
      compiled.fragments.map CompiledFragment.outline =
        other.fragments.map CompiledFragment.outline ∧
      compiled.typesUsed = other.typesUsed := by
  have scalar : schema.IsBuiltIn "String" := Schema.isBuiltInScalar_of_ofItems built (by decide) kept
  have whole := Document.eq_decorate_of_withDiscriminators added
  subst whole
  obtain ⟨both, same⟩ := ok_iff_of_observed (document.observed_compile built scalar options)
  refine ⟨both, ?_⟩
  intro compiled other left right
  have views := same compiled other left right
  simpa only [Compiled.outline, Prod.mk.injEq] using views

/-- Below `n` and inside the fragment on `B` discriminators are added, and the same is compiled. -/
theorem compile_withDiscriminators_repeated :
    ∃ decorated compiled other,
      (Document.ofQuery Overlap.repeated).withDiscriminators Overlap.schema = .ok decorated ∧
      decorated ≠ Document.ofQuery Overlap.repeated ∧
      (Document.ofQuery Overlap.repeated).compile Overlap.schema {} = .ok compiled ∧
      decorated.compile Overlap.schema {} = .ok other ∧
      compiled.operations.map CompiledOperation.outline =
        other.operations.map CompiledOperation.outline ∧
      compiled.typesUsed = other.typesUsed := by
  obtain ⟨compiled, _, done, _, _⟩ := Document.compile_ofQuery rfl Overlap.repeated_run rfl rfl
  have added : (Document.ofQuery Overlap.repeated).withDiscriminators Overlap.schema =
      .ok ((Document.ofQuery Overlap.repeated).decorate Overlap.schema) := rfl
  have kept : ∀ definition, SchemaItem.type definition ∈ Overlap.items → definition.name ≠ "String" := by
    intro definition member
    simp only [Overlap.items, List.mem_cons, SchemaItem.type.injEq, List.not_mem_nil, or_false] at member
    rcases member with rfl | rfl | rfl | rfl | rfl <;> decide
  obtain ⟨both, same⟩ := compile_withDiscriminators Overlap.built kept added {}
  obtain ⟨other, doneAlso⟩ := both.mp ⟨compiled, done⟩
  obtain ⟨operations, _, types⟩ := same compiled other done doneAlso
  exact ⟨_, compiled, other, added, by decide, done, doneAlso, operations, types⟩

end QueryTypes
