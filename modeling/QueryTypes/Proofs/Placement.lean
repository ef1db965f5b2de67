import QueryTypes.Proofs.DefinitionOrder
import QueryTypes.Proofs.Settled

namespace QueryTypes

namespace Discriminator

variable {schema : Schema} {parent : Option TypeDefinition} {position : Position}

/-- What becomes of the list `items` of selections on the type `parent`, whose own lists have been
    rewritten already. -/
structure Arranged (schema : Schema) (parent : Option TypeDefinition) (position : Position)
    (items after : List Selection) : Prop where
  /-- An empty list and one at the root of an operation stay. -/
  kept : items = [] ∨ parent.any (schema.isRoot ·.name) = true → after = items
  /-- In front of any other list stands a discriminator: the first one in it, which leaves its place,
      or a new one. -/
  led : items ≠ [] → parent.any (schema.isRoot ·.name) = false → ∃ first,
    first.isDiscriminator = true ∧ after = first :: items.eraseP Selection.isDiscriminator ∧
      (items.find? Selection.isDiscriminator = some first ∨
        (∀ item ∈ items, item.isDiscriminator = false) ∧ first = .discriminator position)

mutual
/-- A selection on the type `parent` and what it is rewritten to: only lists below it change. -/
inductive Rewrites (schema : Schema) : Option TypeDefinition → Selection → Selection → Prop
  | field {parent : Option TypeDefinition} {head : FieldHead} {span : Span}
      {before items after : List Selection}
      (each : RewritesAll schema (fieldType? schema parent head.name) before items)
      (arranged : Arranged schema (fieldType? schema parent head.name) span.first items after) :
      Rewrites schema parent (.field head span before) (.field head span after)
  | inline {parent : Option TypeDefinition} {head : InlineHead} {span : Span}
      {before items after : List Selection}
      (each : RewritesAll schema (conditionType? schema parent head) before items)
      (arranged : Arranged schema (conditionType? schema parent head) span.first items after) :
      Rewrites schema parent (.inline head span before) (.inline head span after)
  | spread {parent : Option TypeDefinition} (named : FragmentSpread) :
      Rewrites schema parent (.spread named) (.spread named)

inductive RewritesAll (schema : Schema) : Option TypeDefinition → List Selection → List Selection → Prop
  | nil {parent : Option TypeDefinition} : RewritesAll schema parent [] []
  | cons {parent : Option TypeDefinition} {before after : Selection} {rest others : List Selection}
      (first : Rewrites schema parent before after) (onward : RewritesAll schema parent rest others) :
      RewritesAll schema parent (before :: rest) (after :: others)
end

inductive RewritesSet (schema : Schema) (parent : Option TypeDefinition) : SelectionSet → SelectionSet → Prop
  | intro {span : Span} {before items after : List Selection} (each : RewritesAll schema parent before items)
      (arranged : Arranged schema parent span.first items after) :
      RewritesSet schema parent ⟨span, before⟩ ⟨span, after⟩

inductive RewritesDefinition (schema : Schema) : Definition → Definition → Prop
  | operation {position : Position} {head : Option OperationHead} {before after : SelectionSet}
      {root : TypeDefinition} (starts : schema.root (Operation.mk position head before).kind = .ok root)
      (set : RewritesSet schema (some root) before after) :
      RewritesDefinition schema (.operation ⟨position, head, before⟩) (.operation ⟨position, head, after⟩)
  | fragment {position : Position} {name condition : String} {directives : List Directive}
      {before after : SelectionSet} (set : RewritesSet schema (schema.type? condition) before after) :
      RewritesDefinition schema (.fragment ⟨position, name, condition, directives, before⟩)
        (.fragment ⟨position, name, condition, directives, after⟩)

theorem arranged_hoist {items : List Selection} (needed : parent.any (schema.isRoot ·.name) = false)
    (filled : items ≠ []) : Arranged schema parent position items (hoist position items) := by
  refine ⟨?_, fun _ _ => ?_⟩
  · rintro (none | exempt)
    · exact absurd none filled
    · rw [needed] at exempt
      cases exempt
  · unfold hoist
    cases found : items.find? Selection.isDiscriminator with
    | some first => exact ⟨first, List.find?_some found, rfl, .inl rfl⟩
    | none =>
      have others : ∀ item ∈ items, item.isDiscriminator = false := by
        simpa using List.find?_eq_none.mp found
      refine ⟨_, rfl, ?_, .inr ⟨others, rfl⟩⟩
      rw [List.eraseP_of_forall_not (by simpa using others)]

theorem arranged_place (items : List Selection) :
    Arranged schema parent position items (place schema parent position items) := by
  unfold place
  split
  · rename_i exempt
    refine ⟨fun _ => rfl, fun filled needed => ?_⟩
    simp [filled, needed] at exempt
  · rename_i needed
    rw [Bool.not_eq_true, Bool.or_eq_false_iff] at needed
    exact arranged_hoist needed.2 (by simpa using needed.1)

theorem Arranged.unique {items after others : List Selection} (own : Arranged schema parent position items after)
    (also : Arranged schema parent position items others) : after = others := by
  by_cases exempt : items = [] ∨ parent.any (schema.isRoot ·.name) = true
  · rw [own.kept exempt, also.kept exempt]
  · rw [not_or, Bool.not_eq_true] at exempt
    obtain ⟨first, _, rfl, found⟩ := own.led exempt.1 exempt.2
    obtain ⟨second, _, rfl, foundAlso⟩ := also.led exempt.1 exempt.2
    have absent (missing : ∀ item ∈ items, item.isDiscriminator = false) :
        items.find? Selection.isDiscriminator = none := by simpa using missing
    congr 1
    rcases found with found | ⟨missing, rfl⟩ <;> rcases foundAlso with foundAlso | ⟨missingAlso, rfl⟩
    · exact Option.some.inj (found.symm.trans foundAlso)
    · rw [absent missingAlso] at found
      cases found
    · rw [absent missing] at foundAlso
      cases foundAlso
    · rfl

theorem arranged_iff {items after : List Selection} :
    Arranged schema parent position items after ↔ after = place schema parent position items := by
  constructor
  · exact fun arranged => arranged.unique (arranged_place items)
  · rintro rfl
    exact arranged_place items

mutual
theorem rewrites_iff (parent : Option TypeDefinition) : (selection : Selection) → ∀ {result : Selection},
    Rewrites schema parent selection result ↔ result = addBelow schema parent selection
  | .field head span selections, result => by
    constructor
    · rintro (⟨each, arranged⟩ | _)
      rw [addBelow, arranged_iff.mp arranged, (rewritesAll_iff _ selections).mp each]
    · rintro rfl
      exact .field ((rewritesAll_iff _ selections).mpr rfl) (arranged_place _)
  | .inline head span selections, result => by
    constructor
    · rintro (_ | ⟨each, arranged⟩)
      rw [addBelow, arranged_iff.mp arranged, (rewritesAll_iff _ selections).mp each]
    · rintro rfl
      exact .inline ((rewritesAll_iff _ selections).mpr rfl) (arranged_place _)
  | .spread named, result => by
    constructor
    · rintro ⟨⟩
      rw [addBelow]
    · rintro rfl
      exact .spread named

theorem rewritesAll_iff (parent : Option TypeDefinition) : (selections : List Selection) →
    ∀ {results : List Selection},
      RewritesAll schema parent selections results ↔ results = addBelowAll schema parent selections
  | [], results => by
    constructor
    · rintro ⟨⟩
      rw [addBelowAll]
    · rintro rfl
      exact .nil
  | selection :: rest, results => by
    constructor
    · rintro (_ | ⟨first, onward⟩)
      rw [addBelowAll, (rewrites_iff parent selection).mp first, (rewritesAll_iff parent rest).mp onward]
    · rintro rfl
      exact .cons ((rewrites_iff parent selection).mpr rfl) ((rewritesAll_iff parent rest).mpr rfl)
end

theorem rewritesSet_iff {set result : SelectionSet} :
    RewritesSet schema parent set result ↔ result = addToSet schema parent set := by
  constructor
  · rintro ⟨each, arranged⟩
    rw [addToSet, arranged_iff.mp arranged, (rewritesAll_iff parent _).mp each]
  · rintro rfl
    exact .intro ((rewritesAll_iff parent _).mpr rfl) (arranged_place _)

theorem rewritesDefinition_iff {definition result : Definition} :
    RewritesDefinition schema definition result ↔ addToDefinition schema definition = .ok result := by
  constructor
  · rintro (⟨starts, set⟩ | ⟨set⟩)
    · rw [rewritesSet_iff.mp set]
      exact bind_eq_ok.mpr ⟨_, starts, rfl⟩
    · rw [rewritesSet_iff.mp set]
      rfl
  · intro added
    cases definition with
    | operation operation =>
      obtain ⟨root, starts, added⟩ := bind_eq_ok.mp added
      cases added
      exact .operation starts (rewritesSet_iff.mpr rfl)
    | fragment fragment =>
      cases added
      exact .fragment (rewritesSet_iff.mpr rfl)

end Discriminator

open Discriminator

/-- The pass gives a document exactly if every operation has its root type, and then the one whose
    definitions are those of the first, in order, with each list of selections left or led by a
    discriminator. -/
theorem withDiscriminators_eq_ok_iff {schema : Schema} {document decorated : Document} :
    document.withDiscriminators schema = .ok decorated ↔
      List.Forall₂ (RewritesDefinition schema) document.definitions decorated.definitions := by
  have each : List.Forall₂ (RewritesDefinition schema) document.definitions decorated.definitions ↔
      document.definitions.mapM (addToDefinition schema) = .ok decorated.definitions := by
    simp only [mapM_eq_ok_iff, ← rewritesDefinition_iff]
  rw [each]
  unfold Document.withDiscriminators
  rw [bind_eq_ok]
  constructor
  · rintro ⟨definitions, done, finished⟩
    cases finished
    exact done
  · exact fun done => ⟨_, done, rfl⟩

namespace Discriminator

variable {schema : Schema} {parent type : Option TypeDefinition} {selections inner : List Selection}

/-- Among the selections on the type `parent`, or at some depth below them, stand the selections `inner`,
    which are on the type `type`. -/
inductive Encloses (schema : Schema) : Option TypeDefinition → List Selection → Option TypeDefinition →
    List Selection → Prop
  | here {parent : Option TypeDefinition} {selections : List Selection} :
      Encloses schema parent selections parent selections
  | field {parent type : Option TypeDefinition} {selections below inner : List Selection} {head : FieldHead}
      {span : Span} (selected : .field head span below ∈ selections)
      (onward : Encloses schema (fieldType? schema parent head.name) below type inner) :
      Encloses schema parent selections type inner
  | inline {parent type : Option TypeDefinition} {selections below inner : List Selection} {head : InlineHead}
      {span : Span} (selected : .inline head span below ∈ selections)
      (onward : Encloses schema (conditionType? schema parent head) below type inner) :
      Encloses schema parent selections type inner

theorem Encloses.eq_nil (encloses : Encloses schema parent [] type inner) : inner = [] := by
  cases encloses with
  | here => rfl
  | field selected => cases selected
  | inline selected => cases selected

def rewritten (schema : Schema) (parent : Option TypeDefinition) (position : Position)
    (selections : List Selection) : List Selection :=
  place schema parent position (addBelowAll schema parent selections)

theorem mem_rewritten (schema : Schema) (parent : Option TypeDefinition) (position : Position)
    {selection : Selection} (member : selection ∈ selections) :
    addBelow schema parent selection ∈ rewritten schema parent position selections := by
  have inRewritten : addBelow schema parent selection ∈ addBelowAll schema parent selections := by
    rw [addBelowAll_eq]
    exact List.mem_map_of_mem member
  unfold rewritten place
  split
  · exact inRewritten
  · rcases hoist_perm position (addBelowAll schema parent selections) with reordered | added
    · exact reordered.mem_iff.mpr inRewritten
    · rw [added]
      exact List.mem_cons_of_mem _ inRewritten

theorem exists_of_mem_rewritten {position : Position} {result : Selection}
    (member : result ∈ rewritten schema parent position selections) :
    (∃ selection ∈ selections, addBelow schema parent selection = result) ∨ result = .discriminator position := by
  have old (inside : result ∈ addBelowAll schema parent selections) :
      ∃ selection ∈ selections, addBelow schema parent selection = result := by
    rwa [addBelowAll_eq, List.mem_map] at inside
  unfold rewritten place at member
  split at member
  · exact .inl (old member)
  · exact (mem_hoist member).imp_left old

theorem Encloses.rewritten (encloses : Encloses schema parent selections type inner) (position : Position) :
    ∃ place, Encloses schema parent (rewritten schema parent position selections) type
      (Discriminator.rewritten schema type place inner) := by
  induction encloses generalizing position with
  | here => exact ⟨position, .here⟩
  | @field parent type selections below inner head span selected onward ih =>
    obtain ⟨place, inside⟩ := ih span.first
    have kept := mem_rewritten schema parent position selected
    rw [addBelow] at kept
    exact ⟨place, .field kept inside⟩
  | @inline parent type selections below inner head span selected onward ih =>
    obtain ⟨place, inside⟩ := ih span.first
    have kept := mem_rewritten schema parent position selected
    rw [addBelow] at kept
    exact ⟨place, .inline kept inside⟩

/-- Each list of selections was there before, on the same type. Only below a new discriminator there is
    an empty one. -/
theorem Encloses.of_rewritten {position : Position}
    (encloses : Encloses schema parent (Discriminator.rewritten schema parent position selections) type inner) :
    inner = [] ∨ ∃ before place, Encloses schema parent selections type before ∧
      inner = Discriminator.rewritten schema type place before := by
  generalize whole : Discriminator.rewritten schema parent position selections = results at encloses
  induction encloses generalizing selections position with
  | here => exact .inr ⟨selections, position, .here, whole.symm⟩
  | @field parent type results below inner head span selected onward ih =>
    rw [← whole] at selected
    rcases exists_of_mem_rewritten selected with ⟨selection, member, same⟩ | new
    · cases selection with
      | field oldHead oldSpan oldBelow =>
        rw [addBelow] at same
        cases same
        obtain empty | ⟨before, place, inside, same⟩ := ih rfl
        · exact .inl empty
        · exact .inr ⟨before, place, .field member inside, same⟩
      | inline _ _ _ => cases same
      | spread _ => cases same
    · cases new
      exact .inl onward.eq_nil
  | @inline parent type results below inner head span selected onward ih =>
    rw [← whole] at selected
    rcases exists_of_mem_rewritten selected with ⟨selection, member, same⟩ | new
    · cases selection with
      | inline oldHead oldSpan oldBelow =>
        rw [addBelow] at same
        cases same
        obtain empty | ⟨before, place, inside, same⟩ := ih rfl
        · exact .inl empty
        · exact .inr ⟨before, place, .inline member inside, same⟩
      | field _ _ _ => cases same
      | spread _ => cases same
    · cases new

def occurrences (selections : List Selection) : Nat := selections.countP Selection.isDiscriminator

theorem occurrences_addBelowAll (selections : List Selection) :
    occurrences (addBelowAll schema parent selections) = occurrences selections := by
  have kept : Selection.isDiscriminator ∘ addBelow schema parent = Selection.isDiscriminator :=
    funext (isDiscriminator_addBelow schema parent)
  rw [occurrences, addBelowAll_eq, List.countP_map, kept, occurrences]

/-- Discriminators that are there stay, and one is added only if there is none. -/
theorem occurrences_hoist (position : Position) (selections : List Selection) :
    occurrences (hoist position selections) = max 1 (occurrences selections) := by
  unfold hoist
  cases found : selections.find? Selection.isDiscriminator with
  | none =>
    have others : occurrences selections = 0 := List.countP_eq_zero.mpr (List.find?_eq_none.mp found)
    have plain : (Selection.discriminator position).isDiscriminator = true := rfl
    rw [others, occurrences, List.countP_cons_of_pos plain, ← occurrences, others]
    rfl
  | some first =>
    have some : 0 < occurrences selections :=
      List.countP_pos_iff.mpr ⟨first, List.mem_of_find?_eq_some found, List.find?_some found⟩
    have same : occurrences (first :: selections.eraseP Selection.isDiscriminator) = occurrences selections :=
      (cons_eraseP_perm found).countP_eq Selection.isDiscriminator
    change occurrences (first :: selections.eraseP Selection.isDiscriminator) = max 1 (occurrences selections)
    omega

def top (schema : Schema) : Definition → Option TypeDefinition × List Selection
  | .operation operation => ((schema.root operation.kind).toOption, operation.selectionSet.items)
  | .fragment fragment => (schema.type? fragment.condition, fragment.selectionSet.items)

theorem top_of_addToDefinition {definition result : Definition}
    (added : addToDefinition schema definition = .ok result) :
    ∃ position, top schema result =
      ((top schema definition).1, rewritten schema (top schema definition).1 position (top schema definition).2) := by
  cases definition with
  | operation operation =>
    obtain ⟨root, starts, added⟩ := bind_eq_ok.mp added
    cases added
    refine ⟨operation.selectionSet.span.first, Prod.ext rfl ?_⟩
    simp only [top, starts, Except.toOption]
    rfl
  | fragment fragment =>
    cases added
    exact ⟨fragment.selectionSet.span.first, rfl⟩

structure Needing (schema : Schema) (type : TypeDefinition) (selections : List Selection) : Prop where
  composite : type.isComposite = true
  notRoot : schema.isRoot type.name = false
  filled : selections ≠ []

theorem occurrences_rewritten {type : TypeDefinition} (needing : Needing schema type selections)
    (position : Position) :
    (rewritten schema (some type) position selections).head?.any Selection.isDiscriminator = true ∧
      occurrences (rewritten schema (some type) position selections) = max 1 (occurrences selections) := by
  have filled : addBelowAll schema (some type) selections ≠ [] := by
    rw [addBelowAll_eq]
    simpa using needing.filled
  have hoisted : rewritten schema (some type) position selections =
      hoist position (addBelowAll schema (some type) selections) := by
    unfold rewritten place
    rw [if_neg]
    simp [filled, needing.notRoot]
  rw [hoisted, occurrences_hoist, occurrences_addBelowAll]
  exact ⟨head?_hoist _ _, rfl⟩

theorem Needing.of_rewritten {type : TypeDefinition} {position : Position}
    (needing : Needing schema type (rewritten schema (some type) position selections)) :
    Needing schema type selections := by
  refine ⟨needing.composite, needing.notRoot, ?_⟩
  rintro rfl
  exact needing.filled rfl

theorem Needing.rewritten {type : TypeDefinition} (needing : Needing schema type selections) (position : Position) :
    Needing schema type (rewritten schema (some type) position selections) := by
  refine ⟨needing.composite, needing.notRoot, place_ne_nil ?_⟩
  rw [addBelowAll_eq]
  simpa using needing.filled

end Discriminator

namespace Document

variable {schema : Schema} {document decorated : Document}

def HasSelections (schema : Schema) (document : Document) (type : Option TypeDefinition) (selections : List Selection) :
    Prop :=
  ∃ definition ∈ document.definitions,
    Encloses schema (top schema definition).1 (top schema definition).2 type selections

/-- The lists of a decorated document are those of the document before, rewritten. -/
theorem HasSelections.of_withDiscriminators (added : document.withDiscriminators schema = .ok decorated)
    {type : Option TypeDefinition} {selections : List Selection} (present : decorated.HasSelections schema type selections)
    (filled : selections ≠ []) :
    ∃ before place, document.HasSelections schema type before ∧ selections = rewritten schema type place before := by
  obtain ⟨definitions, done, finished⟩ := bind_eq_ok.mp added
  cases finished
  obtain ⟨result, listed, encloses⟩ := present
  obtain ⟨definition, member, own⟩ := exists_of_mem_mapM done listed
  obtain ⟨position, tops⟩ := top_of_addToDefinition own
  rw [tops] at encloses
  obtain empty | ⟨before, place, inside, same⟩ := encloses.of_rewritten
  · exact absurd empty filled
  · exact ⟨before, place, ⟨definition, member, inside⟩, same⟩

theorem HasSelections.withDiscriminators (added : document.withDiscriminators schema = .ok decorated)
    {type : Option TypeDefinition} {selections : List Selection} (present : document.HasSelections schema type selections) :
    ∃ place, decorated.HasSelections schema type (rewritten schema type place selections) := by
  obtain ⟨definitions, done, finished⟩ := bind_eq_ok.mp added
  cases finished
  obtain ⟨definition, member, encloses⟩ := present
  obtain ⟨result, listed, own⟩ := exists_of_mapM done member
  obtain ⟨position, tops⟩ := top_of_addToDefinition own
  obtain ⟨place, inside⟩ := encloses.rewritten position
  refine ⟨place, result, listed, ?_⟩
  rw [tops]
  exact inside

end Document

/-- In a decorated document every list of selections that needs a discriminator starts with one. It has
    as many of them as before, but at least one. So each such list has exactly one if and only if none
    had more. -/
theorem discriminator_leads {schema : Schema} {document decorated : Document}
    (added : document.withDiscriminators schema = .ok decorated) :
    (∀ type selections, decorated.HasSelections schema (some type) selections → Needing schema type selections →
      selections.head?.any Selection.isDiscriminator = true ∧ ∃ before,
        document.HasSelections schema (some type) before ∧ Needing schema type before ∧
          occurrences selections = max 1 (occurrences before)) ∧
    ((∀ type selections, decorated.HasSelections schema (some type) selections → Needing schema type selections →
        occurrences selections = 1) ↔
      ∀ type selections, document.HasSelections schema (some type) selections → Needing schema type selections →
        occurrences selections ≤ 1) := by
  have counted (type : TypeDefinition) (selections : List Selection)
      (present : decorated.HasSelections schema (some type) selections) (needing : Needing schema type selections) :
      selections.head?.any Selection.isDiscriminator = true ∧ ∃ before,
        document.HasSelections schema (some type) before ∧ Needing schema type before ∧
          occurrences selections = max 1 (occurrences before) := by
    obtain ⟨before, place, earlier, rfl⟩ := present.of_withDiscriminators added needing.filled
    obtain ⟨leads, count⟩ := occurrences_rewritten needing.of_rewritten place
    exact ⟨leads, before, earlier, needing.of_rewritten, count⟩
  refine ⟨counted, fun once type selections present needing => ?_, fun few type selections present needing => ?_⟩
  · obtain ⟨place, later⟩ := present.withDiscriminators added
    have one := once type _ later (needing.rewritten place)
    rw [(occurrences_rewritten needing place).2] at one
    omega
  · obtain ⟨_, before, earlier, alsoNeeding, count⟩ := counted type selections present needing
    have most := few type before earlier alsoNeeding
    omega

namespace Overlap

def doubled : List Selection :=
  [field "x" [], field typenameField [], inline "B" [field "y" []], field typenameField []]

def doubledLed : List Selection :=
  [field typenameField [], field "x" [], inline "B" [.discriminator (default : Span).first, field "y" []],
    field typenameField []]

theorem doubled_led : (document doubled).withDiscriminators schema = .ok (document doubledLed) := rfl

theorem hasSelections_doubledLed : (document doubledLed).HasSelections schema (some interfaceA) doubledLed :=
  ⟨_, List.mem_cons_self, .field List.mem_cons_self .here⟩

end Overlap

/-- A discriminator that is written twice is led by the first and kept twice. -/
theorem discriminator_leads_doubled :
    (Overlap.document Overlap.doubled).withDiscriminators Overlap.schema = .ok (Overlap.document Overlap.doubledLed) ∧
      Needing Overlap.schema Overlap.interfaceA Overlap.doubledLed ∧
      Overlap.doubledLed.head?.any Selection.isDiscriminator = true ∧ occurrences Overlap.doubledLed = 2 ∧
      ¬∀ type selections, (Overlap.document Overlap.doubled).HasSelections Overlap.schema (some type) selections →
        Needing Overlap.schema type selections → occurrences selections ≤ 1 := by
  have needing : Needing Overlap.schema Overlap.interfaceA Overlap.doubledLed := ⟨rfl, rfl, List.cons_ne_nil _ _⟩
  obtain ⟨leads, once⟩ := discriminator_leads Overlap.doubled_led
  refine ⟨Overlap.doubled_led, needing, (leads _ _ Overlap.hasSelections_doubledLed needing).1, rfl, fun few => ?_⟩
  have one := once.mpr few _ _ Overlap.hasSelections_doubledLed needing
  exact absurd one (by decide)

end QueryTypes
