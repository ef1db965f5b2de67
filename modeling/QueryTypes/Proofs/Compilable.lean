import QueryTypes.Proofs.CompiledRuns
import QueryTypes.Proofs.Expansion
import QueryTypes.Proofs.Reaching

namespace QueryTypes

namespace Compiler

def Cyclic (c : Compiler) (fault : Error) : Prop :=
  ∃ name, Relation.TransGen c.Spreads name name ∧ fault = .compiler (.recursiveFragment name)

def LeadsTo (c : Compiler) (stack names : List String) : Prop :=
  ∀ outer ∈ stack, ∀ inner ∈ names, Relation.TransGen c.Spreads outer inner

variable {v : Validation} {c : Compiler} {parent above : TypeDefinition}

theorem LeadsTo.push {stack : List String} {name : String} {fragment : Fragment}
    (leads : c.LeadsTo stack [name]) (found : c.fragment? name = some fragment) :
    c.LeadsTo (name :: stack) (Selection.spreadNamesAll fragment.selectionSet.items) := by
  intro outer member inner spread
  have spreads : c.Spreads name inner := ⟨fragment, found, spread⟩
  rcases List.mem_cons.mp member with rfl | member
  · exact .single spreads
  · exact (leads outer member name (List.mem_singleton_self name)).tail spreads

theorem failsOnly_branchOut {allowed : Error → Prop} {condition : TypeDefinition}
    {collect : TypeDefinition → Collection → Except Error Collection} {s : Collection}
    (inside : ∀ s, FailsOnly allowed (collect (c.insideOf parent condition) s)) :
    FailsOnly allowed (c.branchOut parent condition collect s) := by
  rw [branchOut_eq]
  unfold insideOf at inside
  cases opened : c.opens parent condition with
  | false =>
    simp only [opened] at inside
    exact inside s
  | true =>
    simp only [opened] at inside
    exact (inside _).bind fun filled _ => .ok _

mutual
theorem failsOnly_collect (approves : v.Approves c) {stack : List String}
    (deeper : ∀ name fragment, c.fragment? name = some fragment → name ∉ stack →
      ∀ parent above conditional s, c.Fits parent above →
        v.Passes above fragment.selectionSet.items → c.LeadsTo stack [name] →
        FailsOnly c.Cyclic (c.collectAll (c.expand (name :: stack)) parent conditional
          fragment.selectionSet.items s))
    (parent above : TypeDefinition) (fits : c.Fits parent above) (conditional : Bool) :
    (selection : Selection) → ∀ s, v.Passes above [selection] →
      c.LeadsTo stack selection.spreadNames →
      FailsOnly c.Cyclic (c.collect (c.expand stack) parent conditional selection s)
  | .field head span inner, s, accepted, leads => by
    obtain ⟨definition, type, looked, known, empty, acceptedBelow⟩ := approves.field fits accepted
    cases hasFields : type.isComposite with
    | false =>
      rw [collect_leaf looked hasFields]
      exact .ok _
    | true =>
      rw [collect_composite looked hasFields]
      refine .bind ?_ fun below _ => .ok _
      rw [Selection.spreadNames] at leads
      exact failsOnly_collectAll approves deeper type type (.refl known) false inner {}
        (acceptedBelow hasFields) leads
  | .inline head span inner, s, accepted, leads => by
    obtain ⟨condition, _, checked, fragment, fitsInside, acceptedBelow, _⟩ :=
      approves.fragmentOn fits rfl accepted
    rw [collect_fragmentOn fragment nofun]
    cases fragment
    rw [Selection.spreadNames] at leads
    apply failsOnly_branchOut
    intro s
    exact failsOnly_collectAll approves deeper _ checked fitsInside _ inner s acceptedBelow leads
  | .spread spread, s, accepted, leads => by
    rw [Selection.spreadNames] at leads
    by_cases again : spread.name ∈ stack
    · -- the fragment is open, and what is open leads to all that is spread here: a cycle
      rw [collect, if_pos approves.merges, expand, dif_pos again]
      exact .error ⟨spread.name, leads _ again _ (List.mem_singleton_self _), rfl⟩
    · obtain ⟨condition, _, checked, fragment, fitsInside, acceptedBelow, _⟩ :=
        approves.fragmentOn fits rfl accepted
      rw [collect_fragmentOn fragment (by rintro _ ⟨⟩; exact again)]
      cases fragment with
      | spread merged found resolved =>
        apply failsOnly_branchOut
        intro s
        exact deeper _ _ found again _ checked _ s fitsInside acceptedBelow leads

theorem failsOnly_collectAll (approves : v.Approves c) {stack : List String}
    (deeper : ∀ name fragment, c.fragment? name = some fragment → name ∉ stack →
      ∀ parent above conditional s, c.Fits parent above →
        v.Passes above fragment.selectionSet.items → c.LeadsTo stack [name] →
        FailsOnly c.Cyclic (c.collectAll (c.expand (name :: stack)) parent conditional
          fragment.selectionSet.items s))
    (parent above : TypeDefinition) (fits : c.Fits parent above) (conditional : Bool) :
    (selections : List Selection) → ∀ s, v.Passes above selections →
      c.LeadsTo stack (Selection.spreadNamesAll selections) →
      FailsOnly c.Cyclic (c.collectAll (c.expand stack) parent conditional selections s)
  | [], s, _, _ => .ok s
  | selection :: rest, s, accepted, leads => by
    rw [collectAll]
    rw [Selection.spreadNamesAll] at leads
    refine .bind ?_ fun middle _ => ?_
    · apply failsOnly_collect approves deeper parent above fits conditional selection s accepted.head
      intro outer member inner spread
      exact leads outer member inner (List.mem_append_left _ spread)
    · apply failsOnly_collectAll approves deeper parent above fits conditional rest middle accepted.tail
      intro outer member inner spread
      exact leads outer member inner (List.mem_append_right _ spread)
end

/-- Checked selections are collected, unless a fragment spreads itself. -/
theorem failsOnly_collectAll_expand (approves : v.Approves c) {stack : List String}
    (fits : c.Fits parent above) {conditional : Bool} {selections : List Selection} {s : Collection}
    (accepted : v.Passes above selections)
    (leads : c.LeadsTo stack (Selection.spreadNamesAll selections)) :
    FailsOnly c.Cyclic (c.collectAll (c.expand stack) parent conditional selections s) := by
  induction stack using c.stack_induction generalizing parent above conditional selections s with
  | step stack deeper =>
    refine failsOnly_collectAll approves ?_ parent above fits conditional selections s accepted leads
    intro name fragment found fresh parent above conditional s fits accepted leads
    exact deeper name fragment found fresh fits accepted (leads.push found)

/-- The root type is possible for no other, so a fragment on it has itself as the condition. -/
theorem FragmentOn.of_isRootType (approves : v.Approves c) {root condition : TypeDefinition}
    {selection : Selection} {inner : List Selection}
    (fragment : c.FragmentOn root selection condition inner) (starts : c.schema.IsRootType root)
    (accepted : v.Passes root [selection]) : condition = root ∧ v.Passes root inner := by
  have only {type : TypeDefinition} (known : c.schema.type? type.name = some type)
      (possible : root.name ∈ c.schema.possibleTypes type.name) : type = root :=
    approves.coherent.rootsApart.eq_of_possible approves.distinct starts known possible
  have own := Schema.possibleTypes_of_isObject starts.known starts.isObject
  obtain ⟨_, _, checked, again, fits, acceptedBelow, overlaps⟩ :=
    approves.fragmentOn (.refl starts.known) fragment.key?_eq_none accepted
  obtain ⟨rfl, rfl⟩ := fragment.unique again
  have same : condition = root := by
    rcases overlaps with same | overlaps
    · exact same
    · apply only (fragment.known starts.known)
      simpa [Validation.overlap, approves.schema, own] using overlaps
  subst same
  rw [insideOf_self] at fits
  have sameChecked : checked = condition := by
    apply only fits.knownAbove
    exact Schema.possible_of_isSupertype fits.knownAbove starts.known fits.isSupertype (by simp [own])
  exact ⟨rfl, sameChecked ▸ acceptedBelow⟩

theorem Run.branches_eq_of_isRootType (approves : v.Approves c) {stack : List String}
    {root : TypeDefinition} {conditional : Bool} {selections : List Selection} {s s' : Collection}
    (run : c.Run stack root conditional selections s s') (starts : c.schema.IsRootType root)
    (accepted : v.Passes root selections) : s'.branches = s.branches := by
  induction run with
  | nil => rfl
  | leaf looked simple after ih => exact ih starts accepted.tail
  | composite looked hasFields inside after _ ih => exact ih starts accepted.tail
  | merge fragment fresh applies inside after below ih =>
    obtain ⟨_, acceptedBelow⟩ := fragment.of_isRootType approves starts accepted.head
    rw [ih starts accepted.tail, below starts acceptedBelow, Collection.branches_note]
  | branch fragment fresh opened inside after _ _ =>
    obtain ⟨rfl, _⟩ := fragment.of_isRootType approves starts accepted.head
    simp [opens, Schema.isSupertype] at opened
  | mention unmerged after ih =>
    rw [approves.merges] at unmerged
    cases unmerged

theorem next_spreadGraph {name : String} :
    c.spreadGraph.next name =
      ((c.fragment? name).map fun fragment =>
        Selection.spreadNamesAll fragment.selectionSet.items).getD [] :=
  Graph.next_map Fragment.name (fun fragment => Selection.spreadNamesAll fragment.selectionSet.items)
    c.fragments name

theorem fragmentsReferenced_eq_ok_iff {selections : List Selection} {names : List String} :
    c.fragmentsReferenced selections = .ok names ↔
      names = c.spreadGraph.reach (Selection.spreadNamesAll selections) ∧
        ∀ name ∈ names, (c.fragment? name).isSome = true := by
  unfold fragmentsReferenced
  dsimp only
  cases missing : (c.spreadGraph.reach (Selection.spreadNamesAll selections)).find?
      (fun name => (c.fragment? name).isNone) with
  | none =>
    rw [List.find?_eq_none] at missing
    constructor
    · rintro ⟨⟩
      exact ⟨rfl, by simpa [Option.isSome_iff_ne_none] using missing⟩
    · rintro ⟨rfl, _⟩
      rfl
  | some name =>
    have unknown := List.find?_some missing
    constructor
    · exact nofun
    · rintro ⟨rfl, known⟩
      have found := known name (List.mem_of_find?_eq_some missing)
      simp [Option.isNone_iff_eq_none.mp unknown] at found

/-- All fragments that collected selections need are there. -/
theorem Run.fragmentsReferenced_eq (approves : v.Approves c) {stack : List String} {conditional : Bool}
    {selections : List Selection} {s s' : Collection}
    (run : c.Run stack parent conditional selections s s') (fits : c.Fits parent above)
    (accepted : v.Passes above selections) :
    ∃ names, c.fragmentsReferenced selections = .ok names ∧
      ∀ name ∈ names, ∃ fragment, c.fragment? name = some fragment := by
  -- every fragment that is reached was expanded on some stack
  have expanded : ∀ name ∈ c.spreadGraph.reach (Selection.spreadNamesAll selections),
      ∃ stack, c.Expands v stack name := by
    apply Graph.forall_mem_reach
    · rintro name ⟨stack, expands⟩ next edge
      rw [next_spreadGraph] at edge
      obtain ⟨fragment, _, _, _, _, _, found, _⟩ := expands.collected
      exact ⟨_, expands.spreads approves ⟨fragment, found, by simpa [found] using edge⟩⟩
    · intro name spread
      exact ⟨stack, run.expands approves fits accepted name spread⟩
  have known : ∀ name ∈ c.spreadGraph.reach (Selection.spreadNamesAll selections),
      ∃ fragment, c.fragment? name = some fragment := by
    intro name reached
    obtain ⟨stack, expands⟩ := expanded name reached
    obtain ⟨fragment, _, _, _, _, _, found, _⟩ := expands.collected
    exact ⟨fragment, found⟩
  refine ⟨_, fragmentsReferenced_eq_ok_iff.mpr ⟨rfl, ?_⟩, known⟩
  intro name reached
  exact Option.isSome_iff_exists.mpr (known name reached)

theorem failsOnly_joinSources {allowed : Error → Prop} {fragments : List CompiledFragment}
    {names : List String} (listed : ∀ name ∈ names, name ∈ fragments.map CompiledFragment.name)
    (source : String) : FailsOnly allowed (joinSources fragments source names) := by
  refine .bind (.mapM fun name member => ?_) fun sources _ => .ok _
  split
  · exact .ok _
  · rename_i missing
    obtain ⟨fragment, found, named⟩ := List.mem_map.mp (listed name member)
    exact absurd named (by simpa using List.find?_eq_none.mp missing fragment found)

theorem failsOnly_fragment (approves : v.Approves c) {fragment : Fragment}
    (found : c.fragment? fragment.name = some fragment) :
    FailsOnly c.Cyclic (c.fragment fragment) := by
  obtain ⟨condition, known, hasFields, accepted⟩ := approves.accepted _ _ found
  have resolved : c.composite fragment.condition = .ok condition :=
    composite_eq_ok.mpr ⟨known, hasFields⟩
  have fits : c.Fits condition condition := .refl (by rwa [Schema.name_of_type? known])
  have leads : c.LeadsTo [] [fragment.name] := nofun
  unfold Compiler.fragment
  rw [resolved, ok_bind]
  refine .bind ?_ fun shape _ => .ok _
  exact .bind (failsOnly_collectAll_expand approves fits accepted (leads.push found)) fun _ _ => .ok _

theorem acyclic_of_fragment (approves : v.Approves c) {fragment : Fragment}
    (found : c.fragment? fragment.name = some fragment) {result : CompiledFragment × List String}
    (compiled : c.fragment fragment = .ok result) :
    ¬Relation.TransGen c.Spreads fragment.name fragment.name := by
  obtain ⟨condition, known, _, accepted⟩ := approves.accepted _ _ found
  obtain ⟨type, s, compiles, _⟩ := fragment_eq_ok_iff.mp compiled
  cases known.symm.trans compiles.found
  exact compiles.run.acyclic approves found (.refl (by rwa [Schema.name_of_type? known])) accepted

theorem failsOnly_operation (approves : v.Approves c) {fragments : List CompiledFragment}
    (compiled : ∀ name fragment, c.fragment? name = some fragment →
      name ∈ fragments.map CompiledFragment.name)
    {operation : Operation} {name : String} (named : operation.name? = some name)
    {root : TypeDefinition} (starts : c.schema.root operation.kind = .ok root)
    (isRootType : c.schema.IsRootType root)
    (accepted : v.Passes root operation.selectionSet.items) (withId : Bool) :
    FailsOnly c.Cyclic (c.operation withId fragments operation) := by
  have leads : c.LeadsTo [] (Selection.spreadNamesAll operation.selectionSet.items) :=
    List.forall_mem_nil _
  simp only [Compiler.operation, named, starts, ok_bind]
  -- after a successful collection nothing else can fail
  refine .bind (failsOnly_collectAll_expand approves (.refl isRootType.known) accepted leads) ?_
  intro collection collected
  have run := collectAll_eq_ok_iff.mp collected
  have closed : collection.branches = [] :=
    run.branches_eq_of_isRootType approves isRootType accepted
  obtain ⟨names, referenced, found⟩ :=
    run.fragmentsReferenced_eq approves (.refl isRootType.known) accepted
  simp only [closed, referenced, ok_bind]
  refine .bind (failsOnly_joinSources ?_ _) fun whole _ => .ok _
  intro name member
  obtain ⟨fragment, isFragment⟩ := found name member
  exact compiled name fragment isFragment

end Compiler

namespace Document

variable {document : Document} {schema : Schema} {addsTypename merges : Bool}

theorem fragment?_compiler (unique : (document.fragments.map Fragment.name).Nodup) {name : String}
    {fragment : Fragment} :
    (document.compiler schema merges).fragment? name = some fragment ↔
      fragment ∈ document.fragments ∧ fragment.name = name := by
  have whole : (document.compiler schema merges).fragments = document.fragments :=
    distinctBy_eq_self Fragment.name unique
  unfold Compiler.fragment?
  rw [whole]
  constructor
  · intro found
    exact ⟨List.mem_of_find?_eq_some found, by simpa using List.find?_some found⟩
  · rintro ⟨member, rfl⟩
    exact find?_key_of_mem Fragment.name unique member

theorem spreads_compiler (unique : (document.fragments.map Fragment.name).Nodup) :
    (document.compiler schema merges).Spreads = document.Spreads := by
  funext outer inner
  simp only [Compiler.Spreads, fragment?_compiler unique, Document.Spreads, and_assoc]

theorem not_mem_fieldNamesAll {name : String} (absent : name ∉ document.fieldNames)
    {definition : Definition} (member : definition ∈ document.definitions) :
    name ∉ Selection.fieldNamesAll definition.selections :=
  fun selected => absent (List.mem_flatMap.mpr ⟨definition, member, selected⟩)

theorem approves_of_validate (distinct : schema.Distinct) (coherent : schema.Coherent)
    (typename : (schema.type? "String").any TypeDefinition.isOutput = true)
    (valid : document.validate schema addsTypename = .ok ())
    (noSchema : "__schema" ∉ document.fieldNames) (noType : "__type" ∉ document.fieldNames) :
    (document.validation schema addsTypename).Approves (document.compiler schema true) := by
  have unique := nodup_fragments_of_validate valid
  refine ⟨rfl, rfl, distinct, coherent, typename, ?_, ?_⟩
  · intro name condition declared
    obtain ⟨pair, found, rfl⟩ := Option.map_eq_some_iff.mp declared
    have listed : pair ∈ (document.validation schema addsTypename).conditions := by
      simpa using List.mem_of_find?_eq_some found
    obtain ⟨fragment, member, rfl⟩ := List.mem_map.mp listed
    exact ⟨fragment, (fragment?_compiler unique).mpr ⟨member, by simpa using List.find?_some found⟩, rfl⟩
  · intro name fragment found
    have member := mem_fragments.mp ((fragment?_compiler unique).mp found).1
    obtain ⟨_, condition, known, hasFields, faultless⟩ :=
      Validation.fragment_of_faultless (faultless_of_validate valid) member
    exact ⟨condition, known, hasFields, faultless, not_mem_fieldNamesAll noSchema member,
      not_mem_fieldNamesAll noType member⟩

/-- Every fragment that a compiler finds is among the compiled ones. -/
theorem mem_names_of_compiled {results : List (CompiledFragment × List String)}
    (compiled : document.fragments.mapM (document.compiler schema merges).fragment = .ok results)
    {name : String} {fragment : Fragment}
    (found : (document.compiler schema merges).fragment? name = some fragment) :
    name ∈ (distinctBy CompiledFragment.name (results.map Prod.fst)).map CompiledFragment.name := by
  have named : fragment.name = name := by simpa using List.find?_some found
  have inDocument := mem_of_mem_distinctBy _ (List.mem_of_find?_eq_some found)
  obtain ⟨result, listed, ok⟩ := exists_of_mapM compiled inDocument
  obtain ⟨_, _, compiles, _⟩ := Compiler.fragment_eq_ok_iff.mp ok
  have sameName : result.1.name = name := compiles.name.trans named
  rw [map_distinctBy, mem_distinct]
  exact sameName ▸ List.mem_map_of_mem (List.mem_map_of_mem listed)

/-- A valid document is compiled, unless a fragment spreads itself. -/
theorem failsOnly_compile {items : List SchemaItem} (built : Schema.ofItems items = .ok schema)
    (approves : (document.validation schema addsTypename).Approves (document.compiler schema true))
    (valid : document.validate schema addsTypename = .ok ())
    (noSchema : "__schema" ∉ document.fieldNames) (noType : "__type" ∉ document.fieldNames)
    {options : Options} (merges : options.mergeSpreads = true) :
    FailsOnly (document.compiler schema true).Cyclic (document.compile schema options) := by
  have unique := nodup_fragments_of_validate valid
  simp only [compile, merges]
  refine .bind (.mapM fun fragment member => ?_) fun fragments compiled => ?_
  · exact Compiler.failsOnly_fragment approves ((fragment?_compiler unique).mpr ⟨member, rfl⟩)
  refine .bind (.mapM fun operation member => ?_) fun operations _ => .ok _
  have member := mem_operations.mp member
  obtain ⟨name, root, named, starts, faultless⟩ :=
    Validation.operation_of_faultless (faultless_of_validate valid) member
  refine Compiler.failsOnly_operation approves ?_ named starts
    (Schema.isRootType_of_ofItems built starts)
    ⟨faultless, not_mem_fieldNamesAll noSchema member, not_mem_fieldNamesAll noType member⟩ _
  intro name fragment found
  exact mem_names_of_compiled compiled found

theorem acyclic_of_compile
    (approves : (document.validation schema addsTypename).Approves (document.compiler schema true))
    (unique : (document.fragments.map Fragment.name).Nodup) {options : Options}
    (merges : options.mergeSpreads = true) {result : Compiled}
    (compiled : document.compile schema options = .ok result) (name : String) :
    ¬Relation.TransGen (document.compiler schema true).Spreads name name := by
  intro cycle
  obtain ⟨_, ⟨fragment, found, _⟩, _⟩ := Relation.TransGen.head'_iff.mp cycle
  obtain ⟨member, rfl⟩ := (fragment?_compiler unique).mp found
  simp only [compile, merges] at compiled
  obtain ⟨fragments, each, _⟩ := bind_eq_ok.mp compiled
  obtain ⟨_, _, ok⟩ := exists_of_mapM each member
  exact Compiler.acyclic_of_fragment approves found ok cycle

end Document

-- Documents with a fragment `F` on an interface `A` that spreads `G` on its object type `T`,
-- and a schema with an input object of the name `String`.
namespace Chain

def fields : List FieldDefinition :=
  [⟨"x", none, [], .named "Int"⟩, ⟨"n", none, [], .named "A"⟩]

def items : List SchemaItem :=
  [.type ⟨"Query", none, .object [] [⟨"n", none, [], .named "T"⟩]⟩,
    .type ⟨"A", none, .interface fields⟩, .type ⟨"T", none, .object ["A"] fields⟩]

def schema : Schema := ⟨Schema.definitionsOf items, "Query", none, none⟩

def field (name : String) (inner : List Selection) : Selection :=
  .field ⟨.start, none, name, [], []⟩ default inner

def spread (name : String) : Selection := .spread ⟨.start, name, []⟩

def fragment (name condition : String) (selections : List Selection) : Definition :=
  .fragment ⟨.start, name, condition, [], ⟨default, selections⟩⟩

/-- `query Q { n { ...F } } fragment F on A { n { ...G } } fragment G on T { n { ... } }` with the
    given selections in `G`. -/
def document (selections : List Selection) : Document :=
  ⟨[.operation ⟨.start, some ⟨.query, some "Q", [], []⟩, ⟨default, [field "n" [spread "F"]]⟩⟩,
    fragment "F" "A" [field "n" [spread "G"]], fragment "G" "T" [field "n" selections]]⟩

theorem built : Schema.ofItems items = .ok schema := rfl

theorem coherent : schema.Coherent := by decide

theorem open_valid : (document [field "x" []]).validate schema false = .ok () := rfl

theorem closed_valid : (document [spread "F"]).validate schema false = .ok () := rfl

theorem spreads_open {outer inner : String} (spreads : (document [field "x" []]).Spreads outer inner) :
    outer = "F" ∧ inner = "G" := by
  obtain ⟨listed, member, rfl, spread⟩ := spreads
  simp only [document, fragment, Document.fragments, List.filterMap_cons, List.filterMap_nil,
    List.mem_cons, List.not_mem_nil, or_false] at member
  rcases member with rfl | rfl
  · exact ⟨rfl, by simpa [field, Chain.spread, Selection.spreadNamesAll, Selection.spreadNames] using spread⟩
  · simp [field, Selection.spreadNamesAll, Selection.spreadNames] at spread

def redefining : List SchemaItem :=
  [.type ⟨"Query", none, .object [] [⟨"a", none, [], .named "Int"⟩]⟩,
    .type ⟨"String", none, .input [⟨"x", none, .named "Int", false⟩]⟩]

def redefined : Schema := ⟨Schema.definitionsOf redefining, "Query", none, none⟩

def hidden : Document := ⟨[fragment "F" "Query" [field "__typename" [spread "F"]]]⟩

end Chain

/-- A valid document is compiled exactly if no fragment spreads itself, through others or not, and
    else the fault names such a fragment. -/
theorem compile_ok_iff_acyclic {items : List SchemaItem} {schema : Schema}
    (built : Schema.ofItems items = .ok schema) (coherent : schema.Coherent)
    (typename : (schema.type? "String").any TypeDefinition.isOutput = true) {document : Document}
    {addsTypename : Bool} (valid : document.validate schema addsTypename = .ok ())
    (noSchema : "__schema" ∉ document.fieldNames) (noType : "__type" ∉ document.fieldNames)
    (options : Options) (merges : options.mergeSpreads = true) :
    ((∃ compiled, document.compile schema options = .ok compiled) ↔
      ¬∃ name, Relation.TransGen document.Spreads name name) ∧
    ((∃ name, Relation.TransGen document.Spreads name name) →
      ∃ name, Relation.TransGen document.Spreads name name ∧
        document.compile schema options = .error (.compiler (.recursiveFragment name))) := by
  have unique := Document.nodup_fragments_of_validate valid
  have approves := Document.approves_of_validate (Schema.distinct_of_ofItems built) coherent typename
    valid noSchema noType
  have fails := Document.failsOnly_compile built approves valid noSchema noType merges
  have acyclic {result : Compiled} (compiled : document.compile schema options = .ok result) :=
    Document.acyclic_of_compile approves unique merges compiled
  unfold Compiler.Cyclic at fails
  rw [Document.spreads_compiler unique] at fails acyclic
  cases outcome : document.compile schema options with
  | ok compiled =>
    have none : ¬∃ name, Relation.TransGen document.Spreads name name := by
      rintro ⟨name, cycle⟩
      exact acyclic outcome name cycle
    exact ⟨⟨fun _ => none, fun _ => ⟨compiled, rfl⟩⟩, fun cyclic => absurd cyclic none⟩
  | error fault =>
    obtain ⟨name, cycle, rfl⟩ := fails fault outcome
    refine ⟨⟨?_, ?_⟩, fun _ => ⟨name, cycle, rfl⟩⟩
    · rintro ⟨_, ⟨⟩⟩
    · intro none
      exact absurd ⟨name, cycle⟩ none

/-- A spread below a field whose type is an input object is neither checked nor followed, so a
    fragment that spreads itself there is compiled. -/
theorem hidden_cycle_compiled :
    Schema.ofItems Chain.redefining = .ok Chain.redefined ∧ Chain.redefined.Coherent ∧
    Chain.redefined.UnionsOfObjects ∧
    (∀ type ∈ Chain.redefined.types, ∀ name ∈ type.interfaces,
      (Chain.redefined.type? name).any TypeDefinition.isInterface = true) ∧
    Chain.hidden.validate Chain.redefined false = .ok () ∧
    "__schema" ∉ Chain.hidden.fieldNames ∧ "__type" ∉ Chain.hidden.fieldNames ∧
    Relation.TransGen Chain.hidden.Spreads "F" "F" ∧
    ∃ compiled, Chain.hidden.compile Chain.redefined {} = .ok compiled := by
  refine ⟨rfl, by decide, by decide, by decide, rfl, by decide, by decide, .single ?_, _, rfl⟩
  exact ⟨_, List.mem_cons_self, rfl, by decide⟩

/-- With `x` in `G` the document is compiled, with `...F` the fault is found. -/
theorem chain_compiled_unless_closed :
    (∃ compiled, (Chain.document [Chain.field "x" []]).compile Chain.schema {} = .ok compiled) ∧
    ∃ name, (Chain.document [Chain.spread "F"]).compile Chain.schema {} =
      .error (.compiler (.recursiveFragment name)) := by
  constructor
  · refine (compile_ok_iff_acyclic Chain.built Chain.coherent rfl Chain.open_valid (by decide)
      (by decide) {} rfl).1.mpr ?_
    rintro ⟨name, cycle⟩
    obtain ⟨_, first, _⟩ := Relation.TransGen.head'_iff.mp cycle
    obtain ⟨_, _, last⟩ := Relation.TransGen.tail'_iff.mp cycle
    have differ := (Chain.spreads_open first).1.symm.trans (Chain.spreads_open last).2
    exact absurd differ (by decide)
  · have cycle : Relation.TransGen (Chain.document [Chain.spread "F"]).Spreads "F" "F" := by
      refine .tail (.single (b := "G") ?_) ?_
      · exact ⟨_, List.mem_cons_self, rfl, by decide⟩
      · exact ⟨_, List.mem_cons_of_mem _ List.mem_cons_self, rfl, by decide⟩
    obtain ⟨name, _, fault⟩ := (compile_ok_iff_acyclic Chain.built Chain.coherent rfl
      Chain.closed_valid (by decide) (by decide) {} rfl).2 ⟨"F", cycle⟩
    exact ⟨name, fault⟩

end QueryTypes
