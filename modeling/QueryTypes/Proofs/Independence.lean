import QueryTypes.Proofs.Compilable
import QueryTypes.Proofs.Reaching
import QueryTypes.Proofs.Unplaced

namespace QueryTypes

open Selection (spreadNames spreadNamesAll unplacedAll)

namespace Compiler

variable {c : Compiler} {others : List Fragment} {needed : String → Prop}

def withFragments (c : Compiler) (others : List Fragment) : Compiler := { c with fragments := others }

mutual
theorem collect_unplaced (c : Compiler) (others : List Fragment) {expand twin : String → Expansion}
    (parent : TypeDefinition) (conditional : Bool) :
    (selection : Selection) → (∀ name ∈ selection.spreadNames, expand name = twin name) → ∀ s,
      c.collect expand parent conditional selection s =
        (c.withFragments others).collect twin parent conditional selection.unplaced s
  | .field head span inner, same, s => by
    rw [spreadNames] at same
    rw [Selection.unplaced]
    have directives : isConditional head.unplaced.directives = isConditional head.directives :=
      isConditional_unplaced head.directives
    cases looked : c.fieldType parent head.name with
    | error fault =>
      have lookedTwin : (c.withFragments others).fieldType parent head.unplaced.name = .error fault :=
        looked
      rw [collect, collect, looked, lookedTwin, error_bind, error_bind]
    | ok found =>
      obtain ⟨definition, type⟩ := found
      have lookedTwin : (c.withFragments others).fieldType parent head.unplaced.name =
          .ok (definition, type) := looked
      cases below : type.isComposite with
      | false =>
        rw [collect_leaf looked below, collect_leaf lookedTwin below, directives]
        rfl
      | true =>
        rw [collect_composite looked below, collect_composite lookedTwin below, directives,
          collectAll_unplaced c others type false inner same]
        rfl
  | .inline head span inner, same, s => by
    rw [spreadNames] at same
    have directives : isConditional head.unplaced.directives = isConditional head.directives :=
      isConditional_unplaced head.directives
    have resolved : (c.withFragments others).inlineType parent head.unplaced = c.inlineType parent head := rfl
    rw [Selection.unplaced, collect, collect, resolved, directives]
    congr 1
    funext condition
    have inside : (fun type s => c.collectAll expand type (conditional || isConditional head.directives)
          inner s) =
        fun type s => (c.withFragments others).collectAll twin type
          (conditional || isConditional head.directives) (unplacedAll inner) s := by
      funext type s
      exact collectAll_unplaced c others type _ inner same s
    dsimp only
    rw [inside]
    rfl
  | .spread named, same, s => by
    have directives : isConditional named.unplaced.directives = isConditional named.directives :=
      isConditional_unplaced named.directives
    have expanded : expand named.name = twin named.unplaced.name :=
      same named.name (by rw [spreadNames]; exact List.mem_singleton_self _)
    rw [Selection.unplaced, collect, collect, directives, ← expanded]
    rfl

/-- What is collected does not depend on the places of selections, and on fragments only through
    those that are spread. -/
theorem collectAll_unplaced (c : Compiler) (others : List Fragment) {expand twin : String → Expansion}
    (parent : TypeDefinition) (conditional : Bool) :
    (selections : List Selection) → (∀ name ∈ spreadNamesAll selections, expand name = twin name) → ∀ s,
      c.collectAll expand parent conditional selections s =
        (c.withFragments others).collectAll twin parent conditional (unplacedAll selections) s
  | [], _, s => by
    rw [unplacedAll, collectAll, collectAll]
  | selection :: rest, same, s => by
    rw [spreadNamesAll, List.forall_mem_append] at same
    rw [unplacedAll, collectAll, collectAll, collect_unplaced c others parent conditional selection same.1]
    congr 1
    funext middle
    exact collectAll_unplaced c others parent conditional rest same.2 middle
end

theorem collectAll_congr {expand twin : String → Expansion} {selections twins : List Selection}
    (alike : unplacedAll selections = unplacedAll twins)
    (same : ∀ name ∈ spreadNamesAll selections, expand name = twin name) (parent : TypeDefinition)
    (conditional : Bool) (s : Collection) :
    c.collectAll expand parent conditional selections s =
      (c.withFragments others).collectAll twin parent conditional twins s := by
  have itself : ∀ name ∈ spreadNamesAll twins, twin name = twin name := fun _ _ => rfl
  have left := collectAll_unplaced c others parent conditional selections same s
  have right := collectAll_unplaced (c.withFragments others) others parent conditional twins itself s
  rw [left, alike]
  exact right.symm

/-- The fragments of all needed names are known here and there, the same up to places, and they spread
    no others. -/
structure AgreesOn (c : Compiler) (others : List Fragment) (needed : String → Prop) : Prop where
  found : ∀ name, needed name → ∃ fragment twin, c.fragment? name = some fragment ∧
    (c.withFragments others).fragment? name = some twin ∧ fragment.unplaced = twin.unplaced
  closed : ∀ name fragment, needed name → c.fragment? name = some fragment →
    ∀ inner ∈ spreadNamesAll fragment.selectionSet.items, needed inner

theorem items_of_unplaced {fragment twin : Fragment} (same : fragment.unplaced = twin.unplaced) :
    unplacedAll fragment.selectionSet.items = unplacedAll twin.selectionSet.items :=
  congrArg (fun f : Fragment => f.selectionSet.items) same

theorem AgreesOn.expand_eq (agrees : c.AgreesOn others needed) {name : String} (isNeeded : needed name)
    (stack : List String) : c.expand stack name = (c.withFragments others).expand stack name := by
  induction stack using c.stack_induction generalizing name with
  | step stack deeper =>
    funext parent conditional s
    rw [Compiler.expand_eq, Compiler.expand_eq]
    split
    · rfl
    · rename_i fresh
      obtain ⟨fragment, twin, found, foundTwin, same⟩ := agrees.found name isNeeded
      have conditions : fragment.condition = twin.condition := (congrArg Fragment.condition same :)
      have inside : (fun type s => c.collectAll (c.expand (name :: stack)) type conditional
            fragment.selectionSet.items s) =
          fun type s => (c.withFragments others).collectAll
            ((c.withFragments others).expand (name :: stack)) type conditional
            twin.selectionSet.items s := by
        funext type s
        apply collectAll_congr (items_of_unplaced same)
        intro inner spread
        exact deeper name fragment found fresh (agrees.closed name fragment isNeeded found inner spread)
      rw [found, foundTwin]
      dsimp only
      rw [inside, conditions]
      rfl

theorem AgreesOn.collectFrom_eq (agrees : c.AgreesOn others needed) {selections twins : List Selection}
    (alike : unplacedAll selections = unplacedAll twins)
    (start : ∀ name ∈ spreadNamesAll selections, needed name) (stack : List String)
    (parent : TypeDefinition) :
    c.collectFrom stack parent selections = (c.withFragments others).collectFrom stack parent twins := by
  unfold collectFrom
  apply collectAll_congr alike
  intro name spread
  exact agrees.expand_eq (start name spread) stack

theorem AgreesOn.next_eq (agrees : c.AgreesOn others needed) {name : String} (isNeeded : needed name) :
    c.spreadGraph.next name = (c.withFragments others).spreadGraph.next name := by
  obtain ⟨fragment, twin, found, foundTwin, same⟩ := agrees.found name isNeeded
  rw [next_spreadGraph, next_spreadGraph, found, foundTwin]
  change spreadNamesAll fragment.selectionSet.items = spreadNamesAll twin.selectionSet.items
  rw [← Selection.spreadNamesAll_unplacedAll, items_of_unplaced same,
    Selection.spreadNamesAll_unplacedAll]

theorem AgreesOn.next_needed (agrees : c.AgreesOn others needed) {name : String} (isNeeded : needed name) :
    ∀ inner ∈ c.spreadGraph.next name, needed inner := by
  obtain ⟨fragment, _, found, _⟩ := agrees.found name isNeeded
  rw [next_spreadGraph, found]
  exact agrees.closed name fragment isNeeded found

theorem AgreesOn.needed_of_mem_reach (agrees : c.AgreesOn others needed) {names : List String}
    (start : ∀ name ∈ names, needed name) : ∀ name ∈ c.spreadGraph.reach names, needed name :=
  Graph.forall_mem_reach (fun _ isNeeded => agrees.next_needed isNeeded) start

theorem AgreesOn.fragmentsReferenced_eq (agrees : c.AgreesOn others needed)
    {selections twins : List Selection} (alike : unplacedAll selections = unplacedAll twins)
    (start : ∀ name ∈ spreadNamesAll selections, needed name) :
    c.fragmentsReferenced selections = .ok (c.spreadGraph.reach (spreadNamesAll selections)) ∧
      (c.withFragments others).fragmentsReferenced twins =
        .ok (c.spreadGraph.reach (spreadNamesAll selections)) := by
  have names : spreadNamesAll selections = spreadNamesAll twins := by
    rw [← Selection.spreadNamesAll_unplacedAll, alike, Selection.spreadNamesAll_unplacedAll]
  have reached := agrees.needed_of_mem_reach start
  constructor
  · refine fragmentsReferenced_eq_ok_iff.mpr ⟨rfl, ?_⟩
    intro name member
    obtain ⟨fragment, _, found, _⟩ := agrees.found name (reached name member)
    rw [found]
    rfl
  · refine fragmentsReferenced_eq_ok_iff.mpr ⟨?_, ?_⟩
    · rw [← names]
      exact Graph.reach_congr (fun _ isNeeded => agrees.next_needed isNeeded)
        (fun _ isNeeded => agrees.next_eq isNeeded) start
    · intro name member
      obtain ⟨_, twin, _, foundTwin, _⟩ := agrees.found name (reached name member)
      rw [foundTwin]
      rfl

theorem joinSources_congr {fragments twins : List CompiledFragment} {names : List String}
    (sources : ∀ name ∈ names, (fragments.find? (·.name == name)).map CompiledFragment.source =
      (twins.find? (·.name == name)).map CompiledFragment.source) (source : String) :
    joinSources fragments source names = joinSources twins source names := by
  unfold joinSources
  rw [mapM_congr]
  intro name member
  have same := sources name member
  cases found : fragments.find? (·.name == name) with
  | none =>
    cases foundTwin : twins.find? (·.name == name) with
    | none => rfl
    | some twin => simp [found, foundTwin] at same
  | some fragment =>
    cases foundTwin : twins.find? (·.name == name) with
    | none => simp [found, foundTwin] at same
    | some twin =>
      rw [found, foundTwin] at same
      exact congrArg Except.ok (Option.some.inj same)

/-- An operation is compiled in the same way with the fragments of two documents that agree on what
    it needs. -/
theorem AgreesOn.operation_eq (agrees : c.AgreesOn others needed) {operation twin : Operation}
    (same : operation.unplaced = twin.unplaced)
    (start : ∀ name ∈ spreadNamesAll operation.selectionSet.items, needed name)
    {fragments twins : List CompiledFragment}
    (sources : ∀ name, needed name → (fragments.find? (·.name == name)).map CompiledFragment.source =
      (twins.find? (·.name == name)).map CompiledFragment.source) (withId : Bool) :
    c.operation withId fragments operation = (c.withFragments others).operation withId twins twin := by
  have names : operation.name? = twin.name? := by
    rw [← Operation.name?_unplaced, same, Operation.name?_unplaced]
  have kinds : operation.kind = twin.kind := by
    rw [← Operation.kind_unplaced, same, Operation.kind_unplaced]
  have texts : (Definition.operation operation).toText = (Definition.operation twin).toText := by
    rw [← Definition.toText_unplaced_operation, same, Definition.toText_unplaced_operation]
  have parameters : operation.parameters.map (fun v => (⟨v.name, v.type⟩ : Variable)) =
      twin.parameters.map fun v => (⟨v.name, v.type⟩ : Variable) := by
    have places (operation : Operation) :
        operation.unplaced.parameters.map (fun v => (⟨v.name, v.type⟩ : Variable)) =
          operation.parameters.map fun v => (⟨v.name, v.type⟩ : Variable) := by
      rw [Operation.parameters_unplaced, List.map_map]
      rfl
    rw [← places, same, places]
  have items : unplacedAll operation.selectionSet.items = unplacedAll twin.selectionSet.items :=
    congrArg (fun o : Operation => o.selectionSet.items) same
  have roots : (c.withFragments others).schema.root twin.kind = c.schema.root operation.kind := by
    rw [kinds]
    rfl
  obtain ⟨references, referencesTwin⟩ := agrees.fragmentsReferenced_eq items start
  have reached := agrees.needed_of_mem_reach start
  have joined (source : String) :=
    joinSources_congr (fun name member => sources name (reached name member)) source
  unfold Compiler.operation
  rw [← names]
  cases operation.name? with
  | none => rfl
  | some name =>
    dsimp only
    rw [roots]
    cases c.schema.root operation.kind with
    | error fault => rfl
    | ok root =>
      rw [ok_bind, ok_bind, ← agrees.collectFrom_eq items start [] root]
      cases c.collectFrom [] root operation.selectionSet.items with
      | error fault => rfl
      | ok collection =>
        rw [ok_bind, ok_bind]
        cases collection.branches with
        | cons branch rest => rfl
        | nil =>
          dsimp only
          rw [references, referencesTwin, ok_bind, ok_bind, texts, joined, parameters, kinds]

end Compiler

def Compiled.operation? (compiled : Compiled) (name : String) : Option CompiledOperation :=
  compiled.operations.find? (·.name == name)

namespace Document

variable {document other : Document} {schema : Schema} {options : Options} {compiled : Compiled}

structure Unambiguous (document : Document) : Prop where
  operations : (document.operations.map Operation.name?).Nodup
  fragments : (document.fragments.map Fragment.name).Nodup

/-- The fragments that selections need: those they spread, and those that are spread in turn. -/
def Needs (document : Document) (selections : List Selection) (name : String) : Prop :=
  ∃ first ∈ spreadNamesAll selections, Relation.ReflTransGen document.Spreads first name

theorem source_of_compiled {merges : Bool} {results : List (CompiledFragment × List String)}
    (compiled : document.fragments.mapM (document.compiler schema merges).fragment = .ok results)
    (name : String) :
    ((distinctBy CompiledFragment.name (results.map Prod.fst)).find? (·.name == name)).map
        CompiledFragment.source =
      ((document.compiler schema merges).fragment? name).map fun f => (Definition.fragment f).toText := by
  let view (fragment : CompiledFragment) := (fragment.name, fragment.source)
  let written (fragment : Fragment) := (fragment.name, (Definition.fragment fragment).toText)
  have each : (results.map Prod.fst).map view = document.fragments.map written := by
    rw [List.map_map]
    apply map_eq_of_mapM _ compiled
    intro fragment result ok
    obtain ⟨_, _, compiles, _⟩ := Compiler.fragment_eq_ok_iff.mp ok
    exact Prod.ext compiles.name compiles.text
  have lists : (distinctBy CompiledFragment.name (results.map Prod.fst)).map view =
      (distinctBy Fragment.name document.fragments).map written := by
    have left := map_distinctBy_map CompiledFragment.name (fun _ => rfl : ∀ f, (view f).1 = f.name)
      (results.map Prod.fst)
    have right := map_distinctBy_map Fragment.name (fun _ => rfl : ∀ f, (written f).1 = f.name)
      document.fragments
    rw [left, right, each]
  have found := congrArg (fun entries => (entries.find? (·.1 == name)).map Prod.snd) lists
  simp only [List.find?_map, Option.map_map] at found
  exact found

/-- With unique names, the compiled form of an operation is found under its name. -/
theorem operation?_of_compile (done : document.compile schema options = .ok compiled)
    (unique : (document.operations.map Operation.name?).Nodup) {operation : Operation}
    (member : operation ∈ document.operations) :
    ∃ fragments result, document.fragments.mapM (document.compiler schema options.mergeSpreads).fragment =
        .ok fragments ∧
      (document.compiler schema options.mergeSpreads).operation options.operationIds
        (distinctBy CompiledFragment.name (fragments.map Prod.fst)) operation = .ok result ∧
      compiled.operation? result.1.name = some result.1 := by
  obtain ⟨fragments, ofFragments, rest⟩ := bind_eq_ok.mp done
  obtain ⟨operations, ofOperations, rest⟩ := bind_eq_ok.mp rest
  cases rest
  obtain ⟨result, listed, ok⟩ := exists_of_mapM ofOperations member
  refine ⟨fragments, result, ofFragments, ok, ?_⟩
  have names : operations.map (fun result => some result.1.name) = document.operations.map Operation.name? := by
    refine map_eq_of_mapM (fun _ _ ok => ?_) ofOperations
    obtain ⟨_, _, compiles, _⟩ := Compiler.operation_eq_ok_iff.mp ok
    exact compiles.name.symm
  have apart : ((operations.map Prod.fst).map CompiledOperation.name).Nodup := by
    rw [← names] at unique
    rw [List.map_map]
    exact List.pairwise_map.mpr
      ((List.pairwise_map.mp unique).imp fun differ same => differ (congrArg some same))
  unfold Compiled.operation?
  rw [distinctBy_eq_self _ apart]
  exact find?_key_of_mem CompiledOperation.name apart (List.mem_map_of_mem listed)

theorem agreesOn_of_needs (clear : document.Unambiguous) (clearOther : other.Unambiguous)
    {merges : Bool} {selections : List Selection} {names : List String}
    (references : (document.compiler schema merges).fragmentsReferenced selections = .ok names)
    (fragments : ∀ fragment ∈ document.fragments, document.Needs selections fragment.name →
      ∃ copy ∈ other.fragments, copy.unplaced = fragment.unplaced) :
    (document.compiler schema merges).AgreesOn (other.compiler schema merges).fragments (· ∈ names) := by
  obtain ⟨rfl, known⟩ := Compiler.fragmentsReferenced_eq_ok_iff.mp references
  have spreads : (document.compiler schema merges).Spreads = document.Spreads :=
    spreads_compiler clear.fragments
  have edges (name inner : String) :
      inner ∈ (document.compiler schema merges).spreadGraph.next name ↔ document.Spreads name inner := by
    rw [← spreads, Compiler.next_spreadGraph]
    cases found : (document.compiler schema merges).fragment? name with
    | none => simp [Compiler.Spreads, found]
    | some fragment => simp [Compiler.Spreads, found]
  have needs : ∀ name ∈ (document.compiler schema merges).spreadGraph.reach (spreadNamesAll selections),
      document.Needs selections name := by
    apply Graph.forall_mem_reach
    · intro name need inner edge
      obtain ⟨first, spread, way⟩ := need
      exact ⟨first, spread, way.tail ((edges name inner).mp edge)⟩
    · intro name spread
      exact ⟨name, spread, .refl⟩
  constructor
  · intro name member
    obtain ⟨fragment, found⟩ := Option.isSome_iff_exists.mp (known name member)
    obtain ⟨inDocument, rfl⟩ := (fragment?_compiler clear.fragments).mp found
    obtain ⟨copy, inOther, same⟩ := fragments fragment inDocument (needs fragment.name member)
    have named : copy.name = fragment.name := (congrArg Fragment.name same :)
    exact ⟨fragment, copy, found, (fragment?_compiler clearOther.fragments).mpr ⟨inOther, named⟩,
      same.symm⟩
  · intro name fragment member found inner spread
    apply Graph.next_mem_reach member
    rw [Compiler.next_spreadGraph, found]
    exact spread

end Document

/-- An operation is compiled to the same record in two documents if both have it, and if both have
    the fragments that it needs, whatever else they hold and in whatever order. -/
theorem compiled_operation_congr {schema : Schema} {options : Options} {document other : Document}
    (clear : document.Unambiguous) (clearOther : other.Unambiguous) {compiled compiledOther : Compiled}
    (done : document.compile schema options = .ok compiled)
    (doneOther : other.compile schema options = .ok compiledOther) {operation twin : Operation}
    (member : operation ∈ document.operations) (memberOther : twin ∈ other.operations)
    (same : operation.unplaced = twin.unplaced)
    (fragments : ∀ fragment ∈ document.fragments,
      document.Needs operation.selectionSet.items fragment.name →
        ∃ copy ∈ other.fragments, copy.unplaced = fragment.unplaced) :
    ∃ name record, operation.name? = some name ∧ compiled.operation? name = some record ∧
      compiledOther.operation? name = some record := by
  obtain ⟨results, result, ofFragments, ok, found⟩ :=
    Document.operation?_of_compile done clear.operations member
  obtain ⟨resultsOther, resultOther, ofOthers, okOther, foundOther⟩ :=
    Document.operation?_of_compile doneOther clearOther.operations memberOther
  obtain ⟨_, _, compiles, _⟩ := Compiler.operation_eq_ok_iff.mp ok
  have references := compiles.references
  have agrees := Document.agreesOn_of_needs clear clearOther references fragments
  have start : ∀ name ∈ spreadNamesAll operation.selectionSet.items, name ∈ result.1.fragmentsReferenced := by
    intro name spread
    rw [(Compiler.fragmentsReferenced_eq_ok_iff.mp references).1]
    exact Graph.mem_reach_of_mem spread
  have sources : ∀ name, name ∈ result.1.fragmentsReferenced →
      ((distinctBy CompiledFragment.name (results.map Prod.fst)).find? (·.name == name)).map
          CompiledFragment.source =
        ((distinctBy CompiledFragment.name (resultsOther.map Prod.fst)).find? (·.name == name)).map
          CompiledFragment.source := by
    intro name member
    obtain ⟨fragment, copy, foundHere, foundThere, alike⟩ := agrees.found name member
    have text := Definition.toText_unplaced_fragment fragment
    rw [alike, Definition.toText_unplaced_fragment] at text
    rw [Document.source_of_compiled ofFragments, Document.source_of_compiled ofOthers, foundHere]
    change _ = Option.map _ (((document.compiler schema options.mergeSpreads).withFragments
      (other.compiler schema options.mergeSpreads).fragments).fragment? name)
    rw [foundThere, Option.map_some, Option.map_some, text]
  have equal := agrees.operation_eq same start sources options.operationIds
  have one : result = resultOther := Except.ok.inj (ok.symm.trans (equal.trans okOther))
  exact ⟨result.1.name, result.1, compiles.name, found, one ▸ foundOther⟩

namespace Chain

def query (position : Position) (name : String) (selections : List Selection) : Operation :=
  ⟨position, some ⟨.query, some name, [], []⟩, ⟨default, selections⟩⟩

def reordered : Document :=
  ⟨[fragment "H" "T" [spread "G"], fragment "G" "T" [field "n" [field "x" []]],
    .operation (query ⟨7, 1⟩ "Q" [field "n" [.spread ⟨⟨8, 5⟩, "F", []⟩]]),
    .operation (query ⟨9, 1⟩ "P" [field "n" [spread "H"]]),
    .fragment ⟨⟨12, 1⟩, "F", "A", [], ⟨default, [field "n" [spread "G"]]⟩⟩]⟩

theorem spreads_reordered {outer inner : String} (spreads : reordered.Spreads outer inner) :
    outer ≠ "G" ∧ inner = "G" := by
  obtain ⟨listed, member, rfl, spread⟩ := spreads
  simp only [reordered, fragment, Document.fragments, List.filterMap_cons, List.filterMap_nil,
    List.mem_cons, List.not_mem_nil, or_false] at member
  rcases member with rfl | rfl | rfl
  · exact ⟨by decide, by simpa [Chain.spread, Selection.spreadNamesAll, Selection.spreadNames] using spread⟩
  · simp [field, Selection.spreadNamesAll, Selection.spreadNames] at spread
  · exact ⟨by decide,
      by simpa [field, Chain.spread, Selection.spreadNamesAll, Selection.spreadNames] using spread⟩

theorem needs_reordered {name : String}
    (need : reordered.Needs [field "n" [.spread ⟨⟨8, 5⟩, "F", []⟩]] name) : name = "F" ∨ name = "G" := by
  obtain ⟨first, spread, way⟩ := need
  rcases Relation.ReflTransGen.cases_tail way with rfl | ⟨_, _, last⟩
  · exact .inl (by simpa [field, Selection.spreadNamesAll, Selection.spreadNames] using spread)
  · exact .inr (spreads_reordered last).2

/-- A valid document is compiled if its fragments spread `G` alone, and `G` spreads none. -/
theorem exists_compiled {document : Document} (valid : document.validate schema false = .ok ())
    (noSchema : "__schema" ∉ document.fieldNames) (noType : "__type" ∉ document.fieldNames)
    (leads : ∀ outer inner, document.Spreads outer inner → outer ≠ "G" ∧ inner = "G")
    {options : Options} (merges : options.mergeSpreads = true) :
    ∃ compiled, document.compile schema options = .ok compiled := by
  have approves := Document.approves_of_validate (Schema.distinct_of_ofItems built) coherent rfl valid
    noSchema noType
  have fails := Document.failsOnly_compile built approves valid noSchema noType merges
  cases outcome : document.compile schema options with
  | ok compiled => exact ⟨compiled, rfl⟩
  | error fault =>
    obtain ⟨name, cycle, _⟩ := fails fault outcome
    rw [Document.spreads_compiler (Document.nodup_fragments_of_validate valid)] at cycle
    obtain ⟨_, first, _⟩ := Relation.TransGen.head'_iff.mp cycle
    obtain ⟨_, _, last⟩ := Relation.TransGen.tail'_iff.mp cycle
    exact absurd (leads _ _ last).2 (leads _ _ first).1

theorem reordered_valid : reordered.validate schema false = .ok () := rfl

end Chain

theorem compiled_operation_congr_reordered :
    ∃ compiled compiledOther record,
      Chain.reordered.compile Chain.schema { operationIds := true } = .ok compiled ∧
      (Chain.document [Chain.field "x" []]).compile Chain.schema { operationIds := true } =
        .ok compiledOther ∧
      compiled.operation? "Q" = some record ∧ compiledOther.operation? "Q" = some record := by
  obtain ⟨compiled, done⟩ : ∃ compiled, Chain.reordered.compile Chain.schema { operationIds := true } =
      .ok compiled :=
    Chain.exists_compiled Chain.reordered_valid (by decide) (by decide)
      (fun _ _ => Chain.spreads_reordered) rfl
  obtain ⟨compiledOther, doneOther⟩ : ∃ compiled, (Chain.document [Chain.field "x" []]).compile
      Chain.schema { operationIds := true } = .ok compiled := by
    apply Chain.exists_compiled Chain.open_valid (by decide) (by decide) _ rfl
    intro outer inner spreads
    obtain ⟨rfl, rfl⟩ := Chain.spreads_open spreads
    exact ⟨by decide, rfl⟩
  have kept : ∀ fragment ∈ Chain.reordered.fragments, fragment.name = "F" ∨ fragment.name = "G" →
      ∃ copy ∈ (Chain.document [Chain.field "x" []]).fragments, copy.unplaced = fragment.unplaced := by
    decide
  obtain ⟨name, record, named, found, foundOther⟩ := compiled_operation_congr
    ⟨by decide, by decide⟩ ⟨by decide, by decide⟩ done doneOther
    (List.mem_cons_self : Chain.query ⟨7, 1⟩ "Q" [Chain.field "n" [.spread ⟨⟨8, 5⟩, "F", []⟩]] ∈ _)
    (List.mem_cons_self : Chain.query .start "Q" [Chain.field "n" [Chain.spread "F"]] ∈ _)
    rfl (fun fragment member need => kept fragment member (Chain.needs_reordered need))
  cases named
  exact ⟨compiled, compiledOther, record, done, doneOther, found, foundOther⟩

end QueryTypes
