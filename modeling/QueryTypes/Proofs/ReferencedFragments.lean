import QueryTypes.Proofs.DefinitionOrder
import QueryTypes.Proofs.Erasing

namespace QueryTypes

namespace Compiler

/-- Spreads lead from selections to a fragment: through fields, inline fragments and the bodies of
    other fragments. -/
inductive LeadsFrom (c : Compiler) : List Selection → String → Prop
  | spread {selections spread} (selected : .spread spread ∈ selections) : LeadsFrom c selections spread.name
  | field {selections head span inner name} (selected : .field head span inner ∈ selections)
    (onward : LeadsFrom c inner name) : LeadsFrom c selections name
  | inline {selections head span inner name} (selected : .inline head span inner ∈ selections)
    (onward : LeadsFrom c inner name) : LeadsFrom c selections name
  | body {selections spread fragment name} (selected : .spread spread ∈ selections)
    (found : c.fragment? spread.name = some fragment)
    (onward : LeadsFrom c fragment.selectionSet.items name) : LeadsFrom c selections name

/-- A walk through selections, with the fragments met before it and after it in the order in which they
    were first met. -/
inductive Walks (c : Compiler) : List Selection → List String → List String → Prop
  | nil {met} : Walks c [] met met
  | field {head span inner rest met middle last} (inside : Walks c inner met middle)
    (after : Walks c rest middle last) : Walks c (.field head span inner :: rest) met last
  | inline {head span inner rest met middle last} (inside : Walks c inner met middle)
    (after : Walks c rest middle last) : Walks c (.inline head span inner :: rest) met last
  | again {spread rest met last} (known : spread.name ∈ met) (after : Walks c rest met last) :
    Walks c (.spread spread :: rest) met last
  | first {spread fragment rest met middle last} (fresh : spread.name ∉ met)
    (found : c.fragment? spread.name = some fragment)
    (inside : Walks c fragment.selectionSet.items (met ++ [spread.name]) middle)
    (after : Walks c rest middle last) : Walks c (.spread spread :: rest) met last

variable {c : Compiler} {selections : List Selection}

theorem LeadsFrom.mono {others : List Selection} {name : String} (leads : c.LeadsFrom selections name)
    (subset : selections ⊆ others) : c.LeadsFrom others name := by
  cases leads with
  | spread selected => exact .spread (subset selected)
  | field selected onward => exact .field (subset selected) onward
  | inline selected onward => exact .inline (subset selected) onward
  | body selected found onward => exact .body (subset selected) found onward

theorem LeadsFrom.trans {name other : String} {fragment : Fragment} (leads : c.LeadsFrom selections name)
    (found : c.fragment? name = some fragment) (onward : c.LeadsFrom fragment.selectionSet.items other) :
    c.LeadsFrom selections other := by
  induction leads with
  | spread selected => exact .body selected found onward
  | field selected _ ih => exact .field selected (ih found)
  | inline selected _ ih => exact .inline selected (ih found)
  | body selected foundFirst _ ih => exact .body selected foundFirst (ih found)

mutual

theorem leadsFrom_of_mem_spreadNames (c : Compiler) {name : String} :
    (selection : Selection) → name ∈ selection.spreadNames → c.LeadsFrom [selection] name
  | .field _ _ inner, spread => .field List.mem_cons_self (leadsFrom_of_mem_spreadNamesAll c inner spread)
  | .inline _ _ inner, spread => .inline List.mem_cons_self (leadsFrom_of_mem_spreadNamesAll c inner spread)
  | .spread named, spread => by
    rw [Selection.spreadNames, List.mem_singleton] at spread
    rw [spread]
    exact .spread List.mem_cons_self

theorem leadsFrom_of_mem_spreadNamesAll (c : Compiler) {name : String} :
    (selections : List Selection) → name ∈ Selection.spreadNamesAll selections → c.LeadsFrom selections name
  | selection :: rest, spread => by
    rw [Selection.spreadNamesAll, List.mem_append] at spread
    rcases spread with first | later
    · exact (leadsFrom_of_mem_spreadNames c selection first).mono (by simp)
    · exact (leadsFrom_of_mem_spreadNamesAll c rest later).mono (List.subset_cons_self _ _)

end

theorem reach_subset_of_selected {selection : Selection} {inner : List Selection}
    (selected : selection ∈ selections) (below : selection.spreadNames = Selection.spreadNamesAll inner) :
    c.spreadGraph.reach (Selection.spreadNamesAll inner) ⊆
      c.spreadGraph.reach (Selection.spreadNamesAll selections) := by
  apply Graph.reach_subset _ fun _ => List.Subset.refl _
  intro name spread
  exact Discriminator.mem_spreadNamesAll.mpr ⟨selection, selected, below ▸ spread⟩

/-- The search reaches the fragments that spreads lead to. -/
theorem mem_reach_iff_leadsFrom {name : String} :
    name ∈ c.spreadGraph.reach (Selection.spreadNamesAll selections) ↔ c.LeadsFrom selections name := by
  constructor
  · apply Graph.forall_mem_reach
    · intro outer leads inner edge
      rw [next_spreadGraph] at edge
      cases found : c.fragment? outer with
      | none => simp [found] at edge
      | some fragment =>
        rw [found] at edge
        exact leads.trans found (leadsFrom_of_mem_spreadNamesAll c _ edge)
    · intro name spread
      exact leadsFrom_of_mem_spreadNamesAll c selections spread
  · intro leads
    induction leads with
    | spread selected =>
      apply Graph.mem_reach_of_mem
      exact Discriminator.mem_spreadNamesAll.mpr ⟨_, selected, by simp [Selection.spreadNames]⟩
    | field selected _ ih => exact reach_subset_of_selected selected (by rw [Selection.spreadNames]) ih
    | inline selected _ ih => exact reach_subset_of_selected selected (by rw [Selection.spreadNames]) ih
    | @body selections spread fragment name selected found _ ih =>
      have met : spread.name ∈ c.spreadGraph.reach (Selection.spreadNamesAll selections) :=
        Graph.mem_reach_of_mem (Discriminator.mem_spreadNamesAll.mpr ⟨_, selected, by simp [Selection.spreadNames]⟩)
      have edges : c.spreadGraph.next spread.name = Selection.spreadNamesAll fragment.selectionSet.items := by
        rw [next_spreadGraph, found]
        rfl
      apply Graph.forall_mem_reach _ _ name ih
      · exact fun _ found _ edge => Graph.next_mem_reach found edge
      · exact fun _ spread => Graph.next_mem_reach met (edges ▸ spread)

theorem Walks.subset {met last : List String} (walks : c.Walks selections met last) : met ⊆ last := by
  induction walks with
  | nil => exact List.Subset.refl _
  | field _ _ below onward => exact List.Subset.trans below onward
  | inline _ _ below onward => exact List.Subset.trans below onward
  | again _ _ onward => exact onward
  | first _ _ _ _ below onward =>
    exact List.Subset.trans (List.subset_append_left _ _) (List.Subset.trans below onward)

theorem Walks.known {met last : List String} (walks : c.Walks selections met last)
    (before : ∀ name ∈ met, (c.fragment? name).isSome = true) : ∀ name ∈ last, (c.fragment? name).isSome = true := by
  induction walks with
  | nil => exact before
  | field _ _ below onward => exact onward (below before)
  | inline _ _ below onward => exact onward (below before)
  | again _ _ onward => exact onward before
  | first _ found _ _ below onward =>
    apply onward
    apply below
    rw [List.forall_mem_append]
    exact ⟨before, by simp [found]⟩

/-- The search goes through the names in selections as the walk does, and on with the other names. -/
theorem Walks.explore_eq {met last : List String} (walks : c.Walks selections met last) (pending : List String) :
    c.spreadGraph.explore met (Selection.spreadNamesAll selections ++ pending) =
      c.spreadGraph.explore last pending := by
  induction walks generalizing pending with
  | nil => rfl
  | field _ _ below onward =>
    rw [Selection.spreadNamesAll, Selection.spreadNames, List.append_assoc, below, onward]
  | inline _ _ below onward =>
    rw [Selection.spreadNamesAll, Selection.spreadNames, List.append_assoc, below, onward]
  | again known _ onward =>
    rw [Selection.spreadNamesAll, Selection.spreadNames, List.append_assoc, List.singleton_append, Graph.explore,
      dif_pos known, onward]
  | first fresh found _ _ below onward =>
    rw [Selection.spreadNamesAll, Selection.spreadNames, List.append_assoc, List.singleton_append, Graph.explore,
      dif_neg fresh, next_spreadGraph, found, Option.map_some, Option.getD_some, below, onward]

theorem closed_le_of_subset (c : Compiler) {met more : List String} (subset : met ⊆ more) :
    c.closed more ≤ c.closed met := by
  apply List.countP_mono_left
  intro fragment _ fresh
  simp only [decide_eq_true_eq] at fresh ⊢
  exact fun member => fresh (subset member)

theorem closed_append_lt {met : List String} {name : String} {fragment : Fragment}
    (found : c.fragment? name = some fragment) (fresh : name ∉ met) : c.closed (met ++ [name]) < c.closed met := by
  have le : c.closed (met ++ [name]) ≤ c.closed (name :: met) := c.closed_le_of_subset (by simp)
  exact Nat.lt_of_le_of_lt le (c.closed_cons_lt met name fragment found fresh)

/-- The walk ends, since the fragments not met become fewer with each body that is walked through. -/
theorem exists_walks (c : Compiler) (met : List String) (selections : List Selection)
    (known : ∀ name, c.LeadsFrom selections name → (c.fragment? name).isSome = true) :
    ∃ last, c.Walks selections met last := by
  match selections with
  | [] => exact ⟨met, .nil⟩
  | .field head span inner :: rest =>
    obtain ⟨middle, inside⟩ := exists_walks c met inner fun name leads =>
      known name (.field List.mem_cons_self leads)
    have fewer := c.closed_le_of_subset inside.subset
    obtain ⟨last, after⟩ := exists_walks c middle rest fun name leads =>
      known name (leads.mono (List.subset_cons_self _ _))
    exact ⟨last, .field inside after⟩
  | .inline head span inner :: rest =>
    obtain ⟨middle, inside⟩ := exists_walks c met inner fun name leads =>
      known name (.inline List.mem_cons_self leads)
    have fewer := c.closed_le_of_subset inside.subset
    obtain ⟨last, after⟩ := exists_walks c middle rest fun name leads =>
      known name (leads.mono (List.subset_cons_self _ _))
    exact ⟨last, .inline inside after⟩
  | .spread spread :: rest =>
    have later : ∀ name, c.LeadsFrom rest name → (c.fragment? name).isSome = true := fun name leads =>
      known name (leads.mono (List.subset_cons_self _ _))
    by_cases fresh : spread.name ∈ met
    · obtain ⟨last, after⟩ := exists_walks c met rest later
      exact ⟨last, .again fresh after⟩
    · obtain ⟨fragment, found⟩ := Option.isSome_iff_exists.mp (known spread.name (.spread List.mem_cons_self))
      have less := closed_append_lt found fresh
      obtain ⟨middle, inside⟩ := exists_walks c (met ++ [spread.name]) fragment.selectionSet.items
        fun name leads => known name (.body List.mem_cons_self found leads)
      have fewer := c.closed_le_of_subset (List.Subset.trans (List.subset_append_left _ _) inside.subset)
      obtain ⟨last, after⟩ := exists_walks c middle rest later
      exact ⟨last, .first fresh found inside after⟩
termination_by (c.closed met, sizeOf selections)
decreasing_by
  · exact Prod.Lex.right _ (by simp only [List.cons.sizeOf_spec, Selection.field.sizeOf_spec]; omega)
  · exact Prod.Lex.right' _ fewer (by simp only [List.cons.sizeOf_spec]; omega)
  · exact Prod.Lex.right _ (by simp only [List.cons.sizeOf_spec, Selection.inline.sizeOf_spec]; omega)
  · exact Prod.Lex.right' _ fewer (by simp only [List.cons.sizeOf_spec]; omega)
  · exact Prod.Lex.right _ (by simp only [List.cons.sizeOf_spec]; omega)
  · exact Prod.Lex.left _ _ less
  · exact Prod.Lex.right' _ fewer (by simp only [List.cons.sizeOf_spec]; omega)

theorem fragmentsReferenced_eq_ok_iff_walks {names : List String} :
    c.fragmentsReferenced selections = .ok names ↔ c.Walks selections [] names := by
  have searched {last : List String} (walks : c.Walks selections [] last) :
      c.spreadGraph.reach (Selection.spreadNamesAll selections) = last := by
    have whole := walks.explore_eq []
    rwa [List.append_nil, Graph.explore] at whole
  rw [fragmentsReferenced_eq_ok_iff]
  constructor
  · rintro ⟨rfl, known⟩
    obtain ⟨last, walks⟩ := exists_walks c [] selections fun name leads =>
      known name (mem_reach_iff_leadsFrom.mpr leads)
    rwa [searched walks]
  · intro walks
    exact ⟨(searched walks).symm, walks.known (by simp)⟩

theorem fragmentsReferenced_eq_error_iff :
    (∃ fault, c.fragmentsReferenced selections = .error fault) ↔
      ∃ name, c.LeadsFrom selections name ∧ c.fragment? name = none := by
  cases outcome : c.fragmentsReferenced selections with
  | ok names =>
    obtain ⟨rfl, known⟩ := fragmentsReferenced_eq_ok_iff.mp outcome
    refine ⟨nofun, ?_⟩
    rintro ⟨name, leads, unknown⟩
    have found := known name (mem_reach_iff_leadsFrom.mpr leads)
    simp [unknown] at found
  | error fault =>
    refine ⟨fun _ => ?_, fun _ => ⟨fault, rfl⟩⟩
    by_contra none
    have known : ∀ name ∈ c.spreadGraph.reach (Selection.spreadNamesAll selections),
        (c.fragment? name).isSome = true := by
      intro name reached
      rw [Option.isSome_iff_ne_none]
      exact fun unknown => none ⟨name, mem_reach_iff_leadsFrom.mp reached, unknown⟩
    cases outcome.symm.trans (fragmentsReferenced_eq_ok_iff.mpr ⟨rfl, known⟩)

theorem sources_of_joinSources {fragments : List CompiledFragment} {source whole : String} {names : List String}
    (joined : joinSources fragments source names = .ok whole) :
    ∃ sources, names.map (fun name => (fragments.find? (·.name == name)).map CompiledFragment.source) =
      sources.map some ∧ whole = "\n".intercalate (source :: sources) := by
  obtain ⟨sources, found, done⟩ := bind_eq_ok.mp joined
  cases done
  refine ⟨sources, ?_, rfl⟩
  clear joined
  induction names generalizing sources with
  | nil =>
    cases found
    rfl
  | cons name names ih =>
    rw [List.mapM_cons] at found
    obtain ⟨first, isFirst, found⟩ := bind_eq_ok.mp found
    obtain ⟨rest, others, found⟩ := bind_eq_ok.mp found
    cases found
    split at isFirst
    · rename_i fragment isNamed
      cases isFirst
      rw [List.map_cons, List.map_cons, ih rest others, isNamed]
      rfl
    · cases isFirst

end Compiler

theorem Document.fragment?_eq_none_iff {document : Document} {schema : Schema} {merges : Bool} {name : String} :
    (document.compiler schema merges).fragment? name = none ↔
      ∀ fragment ∈ document.fragments, fragment.name ≠ name := by
  have names : (distinctBy Fragment.name document.fragments).map Fragment.name =
      distinct (document.fragments.map Fragment.name) := map_distinctBy Fragment.name document.fragments
  have absent : name ∉ (distinctBy Fragment.name document.fragments).map Fragment.name ↔
      name ∉ document.fragments.map Fragment.name := by rw [names, mem_distinct]
  simpa [Document.compiler, Compiler.fragment?] using absent

namespace Chain

/-- `F` and `G` spread each other, and `F` is not walked through again. -/
theorem walks_closed (merges : Bool) :
    ((document [spread "F"]).compiler schema merges).Walks [field "n" [spread "F"]] [] ["F", "G"] :=
  .field (.first (by decide) rfl (.field (.first (by decide) rfl
    (.field (.again (by decide) .nil) .nil) .nil) .nil) .nil) .nil

theorem walks_reordered {operation : Operation} (member : operation ∈ reordered.operations) (merges : Bool) :
    ∃ first, (reordered.compiler schema merges).Walks operation.selectionSet.items [] [first, "G"] := by
  simp only [reordered, fragment, Document.operations, List.filterMap_cons, List.filterMap_nil, List.mem_cons,
    List.not_mem_nil, or_false] at member
  rcases member with rfl | rfl
  · exact ⟨"F", .field (.first (by decide) rfl (.field (.first (by decide) rfl
      (.field (.field .nil .nil) .nil) .nil) .nil) .nil) .nil⟩
  · exact ⟨"H", .field (.first (by decide) rfl (.first (by decide) rfl
      (.field (.field .nil .nil) .nil) .nil) .nil) .nil⟩

end Chain

/-- A search for the fragments that selections need fails if spreads lead to one that the document does
    not have. Otherwise it lists what spreads lead to, each fragment once, where a walk through the
    selections first meets it, and the text of a compiled operation is followed by those of its fragments
    in this order. -/
theorem fragmentsReferenced_exact (schema : Schema) (document : Document) :
    (∀ merges selections,
      ((∃ fault, (document.compiler schema merges).fragmentsReferenced selections = .error fault) ↔
        ∃ name, (document.compiler schema merges).LeadsFrom selections name ∧
          ∀ fragment ∈ document.fragments, fragment.name ≠ name) ∧
      ∀ names, (document.compiler schema merges).fragmentsReferenced selections = .ok names →
        names.Nodup ∧ (∀ name, name ∈ names ↔ (document.compiler schema merges).LeadsFrom selections name) ∧
          (document.compiler schema merges).Walks selections [] names) ∧
    ∀ options compiled, document.compile schema options = .ok compiled → ∀ operation ∈ compiled.operations,
      ∃ source ∈ document.operations, operation.source = (Definition.operation source).toText ∧
        (document.compiler schema options.mergeSpreads).fragmentsReferenced source.selectionSet.items =
          .ok operation.fragmentsReferenced ∧
        ∃ sources, operation.fragmentsReferenced.map
            (fun name => (compiled.fragment? name).map CompiledFragment.source) = sources.map some ∧
          operation.sourceWithFragments = "\n".intercalate (operation.source :: sources) := by
  constructor
  · intro merges selections
    refine ⟨?_, fun names done => ?_⟩
    · rw [Compiler.fragmentsReferenced_eq_error_iff]
      simp only [Document.fragment?_eq_none_iff]
    · have walks := Compiler.fragmentsReferenced_eq_ok_iff_walks.mp done
      obtain ⟨rfl, _⟩ := Compiler.fragmentsReferenced_eq_ok_iff.mp done
      exact ⟨Graph.nodup_reach _ _, fun name => Compiler.mem_reach_iff_leadsFrom, walks⟩
  · intro options compiled done operation member
    obtain ⟨_, _, _, ofOperations, _⟩ := document.exists_leaves done
    obtain ⟨source, inDocument, root, s, compiles, _⟩ := ofOperations operation member
    exact ⟨source, inDocument, compiles.text, compiles.references, Compiler.sources_of_joinSources compiles.joins⟩

/-- Fragments that spread each other are listed once, a fragment that is not there is a fault, and the
    texts of operations that need two fragments have three parts. -/
theorem fragmentsReferenced_exact_chain :
    (((Chain.document [Chain.spread "F"]).compiler Chain.schema true).fragmentsReferenced
        [Chain.field "n" [Chain.spread "F"]] = .ok ["F", "G"] ∧
      ((Chain.document [Chain.spread "F"]).compiler Chain.schema true).LeadsFrom
        [Chain.field "n" [Chain.spread "F"]] "G") ∧
    (∃ fault, ((Chain.document [Chain.spread "F"]).compiler Chain.schema true).fragmentsReferenced
        [Chain.spread "X"] = .error fault) ∧
    ∃ compiled, Chain.reordered.compile Chain.schema {} = .ok compiled ∧
      ∀ operation ∈ compiled.operations, ∃ first second,
        operation.sourceWithFragments = "\n".intercalate [operation.source, first, second] := by
  obtain ⟨closed, _⟩ := fragmentsReferenced_exact Chain.schema (Chain.document [Chain.spread "F"])
  have listed := Compiler.fragmentsReferenced_eq_ok_iff_walks.mpr (Chain.walks_closed true)
  refine ⟨⟨listed, ?_⟩, ?_, ?_⟩
  · exact (((closed true _).2 _ listed).2.1 "G").mp (by decide)
  · exact (closed true _).1.mpr ⟨"X", .spread List.mem_cons_self, by decide⟩
  · obtain ⟨compiled, done⟩ : ∃ compiled, Chain.reordered.compile Chain.schema {} = .ok compiled :=
      Chain.exists_compiled Chain.reordered_valid (by decide) (by decide) (fun _ _ => Chain.spreads_reordered) rfl
    refine ⟨compiled, done, fun operation member => ?_⟩
    obtain ⟨source, inDocument, _, referenced, sources, found, text⟩ :=
      (fragmentsReferenced_exact Chain.schema Chain.reordered).2 {} compiled done operation member
    obtain ⟨name, walks⟩ := Chain.walks_reordered inDocument true
    have names : operation.fragmentsReferenced = [name, "G"] :=
      Except.ok.inj (referenced.symm.trans (Compiler.fragmentsReferenced_eq_ok_iff_walks.mpr walks))
    have two : sources.length = 2 := by
      rw [← List.length_map some, ← found, List.length_map, names]
      rfl
    obtain ⟨first, second, rfl⟩ := List.length_eq_two.mp two
    exact ⟨first, second, text⟩

end QueryTypes
