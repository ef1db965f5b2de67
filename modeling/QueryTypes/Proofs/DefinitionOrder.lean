import Mathlib.Data.List.Nodup
import Mathlib.Data.List.Perm.Basic
import QueryTypes.Proofs.Independence
import QueryTypes.Proofs.Verdicts

namespace QueryTypes

section Keyed

variable {α : Type} {key : α → String} {xs ys : List α}

theorem find?_key_eq_some_iff (unique : (xs.map key).Nodup) {name : String} {x : α} :
    xs.find? (key · == name) = some x ↔ x ∈ xs ∧ key x = name := by
  constructor
  · intro found
    exact ⟨List.mem_of_find?_eq_some found, by simpa using List.find?_some found⟩
  · rintro ⟨member, rfl⟩
    exact find?_key_of_mem key unique member

theorem find?_key_of_perm (reordered : xs.Perm ys) (unique : (xs.map key).Nodup) (name : String) :
    xs.find? (key · == name) = ys.find? (key · == name) := by
  have uniqueToo : (ys.map key).Nodup := (reordered.map key).nodup_iff.mp unique
  ext x
  rw [find?_key_eq_some_iff unique, find?_key_eq_some_iff uniqueToo, reordered.mem_iff]

theorem find?_distinctBy_of_perm (reordered : xs.Perm ys) (unique : (xs.map key).Nodup) (name : String) :
    (distinctBy key xs).find? (key · == name) = (distinctBy key ys).find? (key · == name) := by
  rw [distinctBy_eq_self key unique, distinctBy_eq_self key ((reordered.map key).nodup_iff.mp unique)]
  exact find?_key_of_perm reordered unique name

end Keyed

section Results

variable {ε α β : Type} {f : α → Except ε β} {xs ys : List α} {results : List β}

theorem mapM_eq_ok_iff : xs.mapM f = .ok results ↔ List.Forall₂ (fun x y => f x = .ok y) xs results := by
  induction xs generalizing results with
  | nil =>
    rw [List.mapM_nil, List.forall₂_nil_left_iff]
    exact ⟨fun done => (Except.ok.inj done).symm, fun nothing => congrArg Except.ok nothing.symm⟩
  | cons x xs ih =>
    rw [List.mapM_cons, List.forall₂_cons_left_iff, bind_eq_ok]
    constructor
    · rintro ⟨y, ok, done⟩
      obtain ⟨rest, following, done⟩ := bind_eq_ok.mp done
      cases done
      exact ⟨y, rest, ok, ih.mp following, rfl⟩
    · rintro ⟨y, rest, ok, following, rfl⟩
      exact ⟨y, ok, by rw [ih.mpr following]; rfl⟩

theorem mapM_of_perm (reordered : xs.Perm ys) (done : xs.mapM f = .ok results) :
    ∃ others, ys.mapM f = .ok others ∧ results.Perm others := by
  obtain ⟨others, found, same⟩ := List.perm_comp_forall₂ reordered.symm (mapM_eq_ok_iff.mp done)
  exact ⟨others, mapM_eq_ok_iff.mpr found, same.symm⟩

end Results

namespace Validation

variable {v : Validation}

def withConditions (v : Validation) (others : List (String × String)) : Validation :=
  { v with conditions := others }

mutual
theorem selectionFaults_withConditions {others : List (String × String)}
    (same : ∀ name, (v.withConditions others).condition? name = v.condition? name) (parent : TypeDefinition) :
    (selection : Selection) →
      (v.withConditions others).selectionFaults parent selection = v.selectionFaults parent selection
  | .field head span selections => by
    have inside (type : TypeDefinition) := selectionsFaults_withConditions same type selections
    simp only [selectionFaults, inside]
    rfl
  | .inline head span selections => by
    have inside (type : TypeDefinition) := selectionsFaults_withConditions same type selections
    simp only [selectionFaults, inside]
    rfl
  | .spread named => by
    simp only [selectionFaults, namedSpreadFaults, same]
    rfl

/-- Fragments matter for the check through their type conditions only. -/
theorem selectionsFaults_withConditions {others : List (String × String)}
    (same : ∀ name, (v.withConditions others).condition? name = v.condition? name) (parent : TypeDefinition) :
    (selections : List Selection) →
      (v.withConditions others).selectionsFaults parent selections = v.selectionsFaults parent selections
  | [] => rfl
  | selection :: rest => by
    rw [selectionsFaults, selectionsFaults, selectionFaults_withConditions same parent selection,
      selectionsFaults_withConditions same parent rest]
end

def ownFaults (v : Validation) : Definition → List Diagnostic
  | .operation operation => v.operationFaults [] operation
  | .fragment fragment => v.fragmentFaults [] fragment

theorem ownFaults_withConditions {others : List (String × String)}
    (same : ∀ name, (v.withConditions others).condition? name = v.condition? name) (definition : Definition) :
    (v.withConditions others).ownFaults definition = v.ownFaults definition := by
  have inside := selectionsFaults_withConditions same
  cases definition with
  | operation operation =>
    simp only [ownFaults, operationFaults, inside]
    rfl
  | fragment fragment =>
    simp only [ownFaults, fragmentFaults, inside]
    rfl

theorem operationFaults_eq_nil_iff {earlier : List String} {operation : Operation} :
    v.operationFaults earlier operation = [] ↔
      v.operationFaults [] operation = [] ∧ ∀ name ∈ operation.name?, name ∉ earlier := by
  simp only [operationFaults, List.append_eq_nil_iff]
  cases operation.name? with
  | none => simp
  | some name =>
    constructor
    · rintro ⟨⟨fresh, typed⟩, selected⟩
      exact ⟨⟨⟨rfl, typed⟩, selected⟩, by simpa using fresh⟩
    · rintro ⟨⟨⟨_, typed⟩, selected⟩, fresh⟩
      exact ⟨⟨by simpa using fresh, typed⟩, selected⟩

theorem fragmentFaults_eq_nil_iff {earlier : List String} {fragment : Fragment} :
    v.fragmentFaults earlier fragment = [] ↔ v.fragmentFaults [] fragment = [] ∧ fragment.name ∉ earlier := by
  simp only [fragmentFaults, List.append_eq_nil_iff]
  simp [and_comm]

structure Faultless (v : Validation) (operations fragments : List String) (definitions : List Definition) :
    Prop where
  own : ∀ definition ∈ definitions, v.ownFaults definition = []
  distinctOperations : ((Document.operations ⟨definitions⟩).filterMap Operation.name?).Nodup
  freshOperations : ((Document.operations ⟨definitions⟩).filterMap Operation.name?).Disjoint operations
  distinctFragments : ((Document.fragments ⟨definitions⟩).map Fragment.name).Nodup
  freshFragments : ((Document.fragments ⟨definitions⟩).map Fragment.name).Disjoint fragments

theorem faultless_operation {operations fragments : List String} {operation : Operation} {rest : List Definition} :
    v.Faultless operations fragments (.operation operation :: rest) ↔
      v.operationFaults operations operation = [] ∧
        v.Faultless (operation.name?.toList ++ operations) fragments rest := by
  have names : (Document.operations ⟨.operation operation :: rest⟩).filterMap Operation.name? =
      operation.name?.toList ++ (Document.operations ⟨rest⟩).filterMap Operation.name? := by
    change List.filterMap Operation.name? (operation :: Document.operations ⟨rest⟩) = _
    rw [List.filterMap_cons]
    cases operation.name? <;> rfl
  rw [operationFaults_eq_nil_iff]
  constructor
  · rintro ⟨own, distinct, fresh, fragmentsDistinct, fragmentsFresh⟩
    rw [names] at distinct fresh
    obtain ⟨first, others⟩ := List.forall_mem_cons.mp own
    obtain ⟨_, apart, disjoint⟩ := List.nodup_append'.mp distinct
    obtain ⟨freshFirst, freshOthers⟩ := List.disjoint_append_left.mp fresh
    refine ⟨⟨first, fun name named => ?_⟩, others, apart, ?_, fragmentsDistinct, fragmentsFresh⟩
    · exact freshFirst (Option.mem_toList.mpr named)
    · exact List.disjoint_append_right.mpr ⟨List.disjoint_comm.mp disjoint, freshOthers⟩
  · rintro ⟨⟨first, freshFirst⟩, others, apart, fresh, fragmentsDistinct, fragmentsFresh⟩
    obtain ⟨disjoint, freshOthers⟩ := List.disjoint_append_right.mp fresh
    refine ⟨List.forall_mem_cons.mpr ⟨first, others⟩, ?_, ?_, fragmentsDistinct, fragmentsFresh⟩
    · rw [names]
      exact List.nodup_append'.mpr ⟨by cases operation.name? <;> simp, apart, List.disjoint_comm.mp disjoint⟩
    · rw [names]
      exact List.disjoint_append_left.mpr ⟨fun name named => freshFirst name (Option.mem_toList.mp named), freshOthers⟩

theorem faultless_fragment {operations fragments : List String} {fragment : Fragment} {rest : List Definition} :
    v.Faultless operations fragments (.fragment fragment :: rest) ↔
      v.fragmentFaults fragments fragment = [] ∧ v.Faultless operations (fragment.name :: fragments) rest := by
  have names : (Document.fragments ⟨.fragment fragment :: rest⟩).map Fragment.name =
      fragment.name :: (Document.fragments ⟨rest⟩).map Fragment.name := rfl
  rw [fragmentFaults_eq_nil_iff]
  constructor
  · rintro ⟨own, operationsDistinct, operationsFresh, distinct, fresh⟩
    rw [names] at distinct fresh
    obtain ⟨first, others⟩ := List.forall_mem_cons.mp own
    obtain ⟨unlike, apart⟩ := List.nodup_cons.mp distinct
    obtain ⟨freshFirst, freshOthers⟩ := List.disjoint_cons_left.mp fresh
    exact ⟨⟨first, freshFirst⟩, others, operationsDistinct, operationsFresh, apart,
      List.disjoint_cons_right.mpr ⟨unlike, freshOthers⟩⟩
  · rintro ⟨⟨first, freshFirst⟩, others, operationsDistinct, operationsFresh, apart, fresh⟩
    obtain ⟨unlike, freshOthers⟩ := List.disjoint_cons_right.mp fresh
    refine ⟨List.forall_mem_cons.mpr ⟨first, others⟩, operationsDistinct, operationsFresh, ?_, ?_⟩
    · rw [names]
      exact List.nodup_cons.mpr ⟨unlike, apart⟩
    · rw [names]
      exact List.disjoint_cons_left.mpr ⟨freshFirst, freshOthers⟩

theorem definitionsFaults_eq_nil_iff {operations fragments : List String} {definitions : List Definition} :
    v.definitionsFaults operations fragments definitions = [] ↔ v.Faultless operations fragments definitions := by
  induction definitions generalizing operations fragments with
  | nil =>
    refine ⟨fun _ => ?_, fun _ => rfl⟩
    exact ⟨by simp, List.nodup_nil, List.disjoint_nil_left _, List.nodup_nil, List.disjoint_nil_left _⟩
  | cons definition rest ih =>
    cases definition with
    | operation operation =>
      rw [definitionsFaults, List.append_eq_nil_iff, ih, faultless_operation]
    | fragment fragment =>
      rw [definitionsFaults, List.append_eq_nil_iff, ih, faultless_fragment]

end Validation

namespace Compiler

variable {c : Compiler} {others : List Fragment}
  (same : ∀ name, c.fragment? name = (c.withFragments others).fragment? name)

include same

theorem expand_withFragments (stack : List String) (name : String) :
    c.expand stack name = (c.withFragments others).expand stack name := by
  induction stack using c.stack_induction generalizing name with
  | step stack deeper =>
    funext parent conditional s
    rw [expand_eq, expand_eq, ← same name]
    by_cases isOpen : name ∈ stack
    · rw [if_pos isOpen, if_pos isOpen]
    · rw [if_neg isOpen, if_neg isOpen]
      cases found : c.fragment? name with
      | none => rfl
      | some fragment =>
        have inside : (fun type s => c.collectAll (c.expand (name :: stack)) type conditional
              fragment.selectionSet.items s) =
            fun type s => (c.withFragments others).collectAll ((c.withFragments others).expand (name :: stack))
              type conditional fragment.selectionSet.items s := by
          funext type s
          exact collectAll_congr rfl (fun inner _ => deeper name fragment found isOpen inner) ..
        dsimp only
        rw [inside]
        rfl

theorem collectFrom_withFragments (stack : List String) (parent : TypeDefinition) (selections : List Selection) :
    c.collectFrom stack parent selections = (c.withFragments others).collectFrom stack parent selections :=
  collectAll_congr rfl (fun name _ => expand_withFragments same stack name) ..

theorem fragment_withFragments (fragment : Fragment) :
    c.fragment fragment = (c.withFragments others).fragment fragment := by
  unfold Compiler.fragment shape
  simp only [collectFrom_withFragments same]
  rfl

theorem fragmentsReferenced_withFragments (selections : List Selection) :
    c.fragmentsReferenced selections = (c.withFragments others).fragmentsReferenced selections := by
  have reached : c.spreadGraph.reach (Selection.spreadNamesAll selections) =
      (c.withFragments others).spreadGraph.reach (Selection.spreadNamesAll selections) := by
    refine Graph.reach_congr (fun _ _ _ _ => trivial) (fun name _ => ?_) (fun _ _ => trivial)
    rw [next_spreadGraph, next_spreadGraph, same]
  unfold fragmentsReferenced
  simp only [reached, same]

theorem operation_withFragments {fragments twins : List CompiledFragment}
    (sources : ∀ name, (fragments.find? (·.name == name)).map CompiledFragment.source =
      (twins.find? (·.name == name)).map CompiledFragment.source) (withId : Bool) (operation : Operation) :
    c.operation withId fragments operation = (c.withFragments others).operation withId twins operation := by
  have joined (source : String) (names : List String) : joinSources fragments source names =
      joinSources twins source names := joinSources_congr (fun name _ => sources name) source
  unfold Compiler.operation
  simp only [collectFrom_withFragments same, fragmentsReferenced_withFragments same, joined]
  rfl

end Compiler

def Compiled.fragment? (compiled : Compiled) (name : String) : Option CompiledFragment :=
  compiled.fragments.find? (·.name == name)

/-- The same operations, fragments and types, in whatever order. -/
structure Compiled.SameByName (compiled other : Compiled) : Prop where
  operations : ∀ name, compiled.operation? name = other.operation? name
  fragments : ∀ name, compiled.fragment? name = other.fragment? name
  typesUsed : ∀ name, name ∈ compiled.typesUsed ↔ name ∈ other.typesUsed

theorem Schema.mem_typesUsed_of_perm (schema : Schema) {names others : List String} (reordered : names.Perm others)
    (name : String) : name ∈ schema.typesUsed names ↔ name ∈ schema.typesUsed others := by
  have reached : name ∈ schema.inputGraph.reach names ↔ name ∈ schema.inputGraph.reach others :=
    ⟨fun found => Graph.reach_subset reordered.subset (fun _ => List.Subset.refl _) found,
      fun found => Graph.reach_subset reordered.symm.subset (fun _ => List.Subset.refl _) found⟩
  unfold typesUsed
  rw [List.mem_filter, List.mem_filter, reached]

namespace Document

variable {document other : Document} {schema : Schema} {options : Options}

theorem perm_operations (reordered : document.definitions.Perm other.definitions) :
    document.operations.Perm other.operations := reordered.filterMap _

theorem perm_fragments (reordered : document.definitions.Perm other.definitions) :
    document.fragments.Perm other.fragments := reordered.filterMap _

theorem condition?_of_perm (reordered : document.definitions.Perm other.definitions)
    (unique : (document.fragments.map Fragment.name).Nodup) (schema : Schema) (addsTypename : Bool) (name : String) :
    (other.validation schema addsTypename).condition? name =
      (document.validation schema addsTypename).condition? name := by
  have conditions := (perm_fragments reordered).map fun f => (f.name, f.condition)
  have backwards := ((List.reverse_perm _).trans conditions).trans (List.reverse_perm _).symm
  have distinct : (((document.fragments.map fun f => (f.name, f.condition)).reverse).map Prod.fst).Nodup := by
    rw [List.map_reverse, List.nodup_reverse, List.map_map]
    exact unique
  exact congrArg (Option.map Prod.snd) (find?_key_of_perm backwards distinct name).symm

theorem validate_of_perm (reordered : document.definitions.Perm other.definitions) {addsTypename : Bool}
    (valid : document.validate schema addsTypename = .ok ()) : other.validate schema addsTypename = .ok () := by
  have faultless := Validation.definitionsFaults_eq_nil_iff.mp (faultless_of_validate valid)
  have same := condition?_of_perm reordered faultless.distinctFragments schema addsTypename
  rw [validate_eq_ok_iff]
  apply Validation.definitionsFaults_eq_nil_iff.mpr
  refine ⟨?_, ?_, List.disjoint_nil_right _, ?_, List.disjoint_nil_right _⟩
  · intro definition member
    exact (Validation.ownFaults_withConditions same definition).trans
      (faultless.own definition (reordered.mem_iff.mpr member))
  · exact ((perm_operations reordered).filterMap _).nodup_iff.mp faultless.distinctOperations
  · exact ((perm_fragments reordered).map _).nodup_iff.mp faultless.distinctFragments

theorem fragment?_of_perm (reordered : document.definitions.Perm other.definitions)
    (unique : (document.fragments.map Fragment.name).Nodup) (schema : Schema) (merges : Bool) (name : String) :
    (document.compiler schema merges).fragment? name = (other.compiler schema merges).fragment? name :=
  find?_distinctBy_of_perm (perm_fragments reordered) unique name

theorem nodup_names_of_fragments {merges : Bool} {results : List (CompiledFragment × List String)}
    (done : document.fragments.mapM (document.compiler schema merges).fragment = .ok results)
    (unique : (document.fragments.map Fragment.name).Nodup) :
    ((results.map Prod.fst).map CompiledFragment.name).Nodup := by
  have names : results.map (fun result => result.1.name) = document.fragments.map Fragment.name := by
    refine map_eq_of_mapM (fun _ _ ok => ?_) done
    obtain ⟨_, _, compiles, _⟩ := Compiler.fragment_eq_ok_iff.mp ok
    exact compiles.name
  rw [← names] at unique
  rwa [List.map_map]

theorem nodup_names_of_operations {merges withId : Bool} {fragments : List CompiledFragment}
    {results : List (CompiledOperation × List String)}
    (done : document.operations.mapM ((document.compiler schema merges).operation withId fragments) = .ok results)
    (unique : (document.operations.filterMap Operation.name?).Nodup) :
    ((results.map Prod.fst).map CompiledOperation.name).Nodup := by
  have names : results.map (fun result => some result.1.name) = document.operations.map Operation.name? := by
    refine map_eq_of_mapM (fun _ _ ok => ?_) done
    obtain ⟨_, _, compiles, _⟩ := Compiler.operation_eq_ok_iff.mp ok
    exact compiles.name.symm
  have listed : results.map (fun result => result.1.name) = document.operations.filterMap Operation.name? := by
    have shown := congrArg (List.filterMap id) names
    simpa [List.filterMap_map, Function.comp_def] using shown
  rw [← listed] at unique
  rwa [List.map_map]

theorem compile_of_perm (reordered : document.definitions.Perm other.definitions)
    (uniqueOperations : (document.operations.filterMap Operation.name?).Nodup)
    (uniqueFragments : (document.fragments.map Fragment.name).Nodup) {compiled : Compiled}
    (done : document.compile schema options = .ok compiled) :
    ∃ compiledOther, other.compile schema options = .ok compiledOther ∧ compiled.SameByName compiledOther := by
  obtain ⟨fragments, ofFragments, done⟩ := bind_eq_ok.mp done
  obtain ⟨operations, ofOperations, done⟩ := bind_eq_ok.mp done
  cases done
  have same := fragment?_of_perm reordered uniqueFragments schema options.mergeSpreads
  have distinctFragments := nodup_names_of_fragments ofFragments uniqueFragments
  have distinctOperations := nodup_names_of_operations ofOperations uniqueOperations
  obtain ⟨others, ofOthers, sameFragments⟩ := mapM_of_perm (perm_fragments reordered) ofFragments
  have found (name : String) := find?_distinctBy_of_perm (sameFragments.map Prod.fst) distinctFragments name
  obtain ⟨rest, ofRest, sameOperations⟩ := mapM_of_perm (perm_operations reordered) ofOperations
  have compileFragment := funext (Compiler.fragment_withFragments same)
  have compileOperation := funext (Compiler.operation_withFragments same
    (fun name => congrArg (Option.map CompiledFragment.source) (found name)) options.operationIds)
  rw [compileFragment] at ofOthers
  rw [compileOperation] at ofRest
  refine ⟨⟨schema, distinctBy CompiledOperation.name (rest.map Prod.fst),
    distinctBy CompiledFragment.name (others.map Prod.fst),
    schema.typesUsed (others.flatMap Prod.snd ++ rest.flatMap Prod.snd)⟩, ?_, ?_, found, ?_⟩
  · exact bind_eq_ok.mpr ⟨others, ofOthers, bind_eq_ok.mpr ⟨rest, ofRest, rfl⟩⟩
  · exact find?_distinctBy_of_perm (sameOperations.map Prod.fst) distinctOperations
  · exact schema.mem_typesUsed_of_perm
      ((sameFragments.flatMap_right Prod.snd).append (sameOperations.flatMap_right Prod.snd))

end Document

/-- A document with its definitions in another order is valid in the same cases. If names are unique, it is
    also compiled in the same cases and to the same definitions. -/
theorem definition_order_irrelevant {document other : Document}
    (reordered : document.definitions.Perm other.definitions) (schema : Schema) :
    (∀ addsTypename,
      document.validate schema addsTypename = .ok () ↔ other.validate schema addsTypename = .ok ()) ∧
    ((document.operations.filterMap Operation.name?).Nodup → (document.fragments.map Fragment.name).Nodup →
      ∀ options,
        ((∃ compiled, document.compile schema options = .ok compiled) ↔
          ∃ compiled, other.compile schema options = .ok compiled) ∧
        ∀ compiled compiledOther, document.compile schema options = .ok compiled →
          other.compile schema options = .ok compiledOther → compiled.SameByName compiledOther) := by
  constructor
  · intro addsTypename
    exact ⟨Document.validate_of_perm reordered, Document.validate_of_perm reordered.symm⟩
  · intro uniqueOperations uniqueFragments options
    have uniqueOther := ((Document.perm_operations reordered).filterMap _).nodup_iff.mp uniqueOperations
    have uniqueOtherFragments := ((Document.perm_fragments reordered).map _).nodup_iff.mp uniqueFragments
    refine ⟨⟨?_, ?_⟩, ?_⟩
    · rintro ⟨compiled, done⟩
      obtain ⟨compiledOther, doneOther, _⟩ :=
        Document.compile_of_perm reordered uniqueOperations uniqueFragments done
      exact ⟨compiledOther, doneOther⟩
    · rintro ⟨compiled, done⟩
      obtain ⟨compiledOther, doneOther, _⟩ :=
        Document.compile_of_perm reordered.symm uniqueOther uniqueOtherFragments done
      exact ⟨compiledOther, doneOther⟩
    · intro compiled compiledOther done doneOther
      obtain ⟨found, doneFound, same⟩ := Document.compile_of_perm reordered uniqueOperations uniqueFragments done
      cases doneFound.symm.trans doneOther
      exact same

/-- A document in which fragments stand before and behind the operations that need them. -/
theorem definition_order_irrelevant_reversed :
    ∃ compiled compiledOther,
      Document.validate Chain.schema false ⟨Chain.reordered.definitions.reverse⟩ = .ok () ∧
      Chain.reordered.compile Chain.schema {} = .ok compiled ∧
      Document.compile Chain.schema {} ⟨Chain.reordered.definitions.reverse⟩ = .ok compiledOther ∧
      compiled.SameByName compiledOther := by
  have reordered : Chain.reordered.definitions.Perm (Document.mk Chain.reordered.definitions.reverse).definitions :=
    (List.reverse_perm _).symm
  obtain ⟨validates, compiles⟩ := definition_order_irrelevant reordered Chain.schema
  obtain ⟨succeeds, agree⟩ := compiles (by decide) (by decide) {}
  obtain ⟨compiled, done⟩ : ∃ compiled, Chain.reordered.compile Chain.schema {} = .ok compiled :=
    Chain.exists_compiled Chain.reordered_valid (by decide) (by decide) (fun _ _ => Chain.spreads_reordered) rfl
  obtain ⟨compiledOther, doneOther⟩ := succeeds.mp ⟨compiled, done⟩
  exact ⟨compiled, compiledOther, (validates false).mp Chain.reordered_valid, done, doneOther,
    agree compiled compiledOther done doneOther⟩

end QueryTypes
