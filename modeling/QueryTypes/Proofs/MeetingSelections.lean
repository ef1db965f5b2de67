import Mathlib.Data.List.Pairwise
import QueryTypes.Proofs.Exclusivity
import QueryTypes.Proofs.Independence
import QueryTypes.Proofs.RepeatedFields
import QueryTypes.Proofs.ShapeNames

namespace QueryTypes

open ResponseField
open Selection (unplacedAll)

theorem alternatives_iff {fields : List ResponseField} {cases : List (TypeCase ResponseField)}
    (unique : (cases.map TypeCase.condition).Nodup) :
    Alternatives fields cases ↔
      (∀ first ∈ cases, ∀ second ∈ cases, first.condition ≠ second.condition →
        ∀ type ∈ first.possibleTypes, type ∉ second.possibleTypes) ∧
      ∀ typeCase ∈ cases, keys fields ⊆ keys typeCase.fields := by
  constructor
  · rintro ⟨apart, complete⟩
    refine ⟨?_, complete⟩
    intro first inFirst second inSecond differ
    have symmetric : Std.Symm fun left right : TypeCase ResponseField =>
        ∀ type ∈ left.possibleTypes, type ∉ right.possibleTypes :=
      ⟨fun left right disjoint type listed also => disjoint type also listed⟩
    exact apart.forall inFirst inSecond fun same => differ (congrArg TypeCase.condition same)
  · rintro ⟨apart, complete⟩
    refine ⟨(List.pairwise_map.mp unique).imp_of_mem ?_, complete⟩
    exact fun inFirst inSecond differ => apart _ inFirst _ inSecond differ

namespace Shape

/-- What two selections need so that their cases are alternatives when they are merged: a case that only
    one of them has must have the keys of both, and list no type of the other one's cases. -/
structure Mergeable (left right : Shape) : Prop where
  types : ∀ second ∈ right.cases, second.condition ∉ left.cases.map TypeCase.condition →
    ∀ first ∈ left.cases, ∀ type ∈ first.possibleTypes, type ∉ second.possibleTypes
  keysLeft : ∀ first ∈ left.cases, first.condition ∉ right.cases.map TypeCase.condition →
    keys right.fields ⊆ keys first.fields
  keysRight : ∀ second ∈ right.cases, second.condition ∉ left.cases.map TypeCase.condition →
    keys left.fields ⊆ keys second.fields

variable {left right : Shape} {typeCase : TypeCase ResponseField}

theorem mem_keys_merge (left right : Shape) (key : String) :
    key ∈ keys (left.merge right).fields ↔ key ∈ keys left.fields ∨ key ∈ keys right.fields := by
  rw [merge, keys_mergeAll, mem_insertAll]

section Cases

variable (kindLeft : left.WellKeyed) (kindRight : right.WellKeyed)

include kindLeft

theorem conditions_merge_nodup (right : Shape) :
    ((left.merge right).cases.map TypeCase.condition).Nodup := by
  rw [merge, mergeCases_eq, map_mergeBy TypeCase.condition_absorb]
  exact nodup_insertAll _ _ kindLeft.cases.conditions

include kindRight

theorem mem_cases_merge_iff : typeCase ∈ (left.merge right).cases ↔
    typeCase ∈ left.cases ∧ typeCase.condition ∉ right.cases.map TypeCase.condition ∨
      (∃ first ∈ left.cases, ∃ second ∈ right.cases, first.condition = second.condition ∧
        first.absorb second = typeCase) ∨
      typeCase ∈ right.cases ∧ typeCase.condition ∉ left.cases.map TypeCase.condition := by
  rw [merge, mergeCases_eq]
  exact mem_mergeBy_iff TypeCase.condition_absorb kindLeft.cases.conditions kindRight.cases.conditions

theorem exists_merged_of_mem (inLeft : typeCase ∈ left.cases) :
    ∃ whole ∈ (left.merge right).cases, whole.condition = typeCase.condition ∧
      whole.possibleTypes = typeCase.possibleTypes := by
  by_cases shared : typeCase.condition ∈ right.cases.map TypeCase.condition
  · obtain ⟨second, inRight, same⟩ := List.mem_map.mp shared
    have absorbed : typeCase.absorb second ∈ (left.merge right).cases :=
      (mem_cases_merge_iff kindLeft kindRight).mpr
        (.inr (.inl ⟨typeCase, inLeft, second, inRight, same.symm, rfl⟩))
    exact ⟨_, absorbed, rfl, rfl⟩
  · exact ⟨typeCase, (mem_cases_merge_iff kindLeft kindRight).mpr (.inl ⟨inLeft, shared⟩), rfl, rfl⟩

theorem exists_left_or_fresh_of_mem (inWhole : typeCase ∈ (left.merge right).cases) :
    (∃ first ∈ left.cases, first.condition = typeCase.condition ∧
      first.possibleTypes = typeCase.possibleTypes) ∨
    typeCase ∈ right.cases ∧ typeCase.condition ∉ left.cases.map TypeCase.condition := by
  rcases (mem_cases_merge_iff kindLeft kindRight).mp inWhole with
    ⟨inLeft, _⟩ | ⟨first, inLeft, second, _, _, rfl⟩ | fresh
  · exact .inl ⟨typeCase, inLeft, rfl, rfl⟩
  · exact .inl ⟨first, inLeft, rfl, rfl⟩
  · exact .inr fresh

theorem mergeable_of_alternatives
    (alternatives : Alternatives (left.merge right).fields (left.merge right).cases) :
    left.Mergeable right := by
  obtain ⟨apart, complete⟩ := (alternatives_iff (conditions_merge_nodup kindLeft right)).mp alternatives
  have aloneLeft {first : TypeCase ResponseField} (inLeft : first ∈ left.cases)
      (alone : first.condition ∉ right.cases.map TypeCase.condition) : first ∈ (left.merge right).cases :=
    (mem_cases_merge_iff kindLeft kindRight).mpr (.inl ⟨inLeft, alone⟩)
  have aloneRight {second : TypeCase ResponseField} (inRight : second ∈ right.cases)
      (alone : second.condition ∉ left.cases.map TypeCase.condition) : second ∈ (left.merge right).cases :=
    (mem_cases_merge_iff kindLeft kindRight).mpr (.inr (.inr ⟨inRight, alone⟩))
  refine ⟨?_, ?_, ?_⟩
  · intro second inRight fresh first inLeft type listed
    obtain ⟨whole, inWhole, named, types⟩ := exists_merged_of_mem kindLeft kindRight inLeft
    have differ : whole.condition ≠ second.condition := by
      rw [named]
      exact fun same => fresh (same ▸ List.mem_map_of_mem inLeft)
    exact apart whole inWhole second (aloneRight inRight fresh) differ type (types ▸ listed)
  · intro first inLeft alone key selected
    exact complete first (aloneLeft inLeft alone) ((mem_keys_merge left right key).mpr (.inr selected))
  · intro second inRight fresh key selected
    exact complete second (aloneRight inRight fresh) ((mem_keys_merge left right key).mpr (.inl selected))

variable (ofLeft : Alternatives left.fields left.cases) (ofRight : Alternatives right.fields right.cases)

include ofLeft ofRight

theorem Mergeable.alternatives (mergeable : left.Mergeable right) :
    Alternatives (left.merge right).fields (left.merge right).cases := by
  rw [alternatives_iff (conditions_merge_nodup kindLeft right)]
  constructor
  · have apartLeft := ((alternatives_iff kindLeft.cases.conditions).mp ofLeft).1
    have apartRight := ((alternatives_iff kindRight.cases.conditions).mp ofRight).1
    intro first inFirst second inSecond differ type listed also
    rcases exists_left_or_fresh_of_mem kindLeft kindRight inFirst with
      ⟨one, inLeft, named, types⟩ | ⟨inRight, fresh⟩
    · rw [← types] at listed
      rcases exists_left_or_fresh_of_mem kindLeft kindRight inSecond with
        ⟨two, alsoLeft, alsoNamed, others⟩ | ⟨inRight, fresh⟩
      · rw [← others] at also
        rw [← named, ← alsoNamed] at differ
        exact apartLeft one inLeft two alsoLeft differ type listed also
      · exact mergeable.types second inRight fresh one inLeft type listed also
    · rcases exists_left_or_fresh_of_mem kindLeft kindRight inSecond with
        ⟨two, inLeft, _, others⟩ | ⟨alsoRight, _⟩
      · rw [← others] at also
        exact mergeable.types first inRight fresh two inLeft type also listed
      · exact apartRight first inRight second alsoRight differ type listed also
  · intro typeCase inWhole key selected
    rw [mem_keys_merge] at selected
    rcases (mem_cases_merge_iff kindLeft kindRight).mp inWhole with
      ⟨inLeft, alone⟩ | ⟨first, inLeft, second, inRight, _, rfl⟩ | ⟨inRight, fresh⟩
    · rcases selected with own | other
      · exact ofLeft.complete typeCase inLeft own
      · exact mergeable.keysLeft typeCase inLeft alone other
    · -- a case of both has the keys of both anyway
      rw [TypeCase.absorb, keys_mergeAll, mem_insertAll]
      exact selected.imp (fun own => ofLeft.complete first inLeft own)
        fun other => ofRight.complete second inRight other
    · rcases selected with other | own
      · exact mergeable.keysRight typeCase inRight fresh other
      · exact ofRight.complete typeCase inRight own

theorem alternatives_merge_iff :
    Alternatives (left.merge right).fields (left.merge right).cases ↔ left.Mergeable right :=
  ⟨mergeable_of_alternatives kindLeft kindRight,
    Mergeable.alternatives kindLeft kindRight ofLeft ofRight⟩

end Cases

theorem mergeable_iff_beside (conditions : ∀ first ∈ left.cases, ∀ second ∈ right.cases,
      first.condition ≠ second.condition)
    (types : ∀ first ∈ left.cases, ∀ second ∈ right.cases,
      ∀ type ∈ first.possibleTypes, type ∉ second.possibleTypes) :
    left.Mergeable right ↔ left.Beside right := by
  have aloneLeft (first : TypeCase ResponseField) (inLeft : first ∈ left.cases) :
      first.condition ∉ right.cases.map TypeCase.condition := by
    intro shared
    obtain ⟨second, inRight, same⟩ := List.mem_map.mp shared
    exact conditions first inLeft second inRight same.symm
  have aloneRight (second : TypeCase ResponseField) (inRight : second ∈ right.cases) :
      second.condition ∉ left.cases.map TypeCase.condition := by
    intro shared
    obtain ⟨first, inLeft, same⟩ := List.mem_map.mp shared
    exact conditions first inLeft second inRight same
  constructor
  · intro mergeable
    exact ⟨conditions, types, fun first inLeft => mergeable.keysLeft first inLeft (aloneLeft first inLeft),
      fun second inRight => mergeable.keysRight second inRight (aloneRight second inRight)⟩
  · intro beside
    exact ⟨fun second inRight _ first inLeft => types first inLeft second inRight,
      fun first inLeft _ => beside.keysLeft first inLeft,
      fun second inRight _ => beside.keysRight second inRight⟩

end Shape

namespace Compiler

variable {c : Compiler} {stack : List String} {parent : TypeDefinition} {selections first second : List Selection}
  {shape left right : Shape} {type : String}

/-- Selections on a type open a branch that applies to this object type. -/
def SinglesOut (c : Compiler) (parent : TypeDefinition) (selections : List Selection) (type : String) :
    Prop :=
  type ∈ c.schema.possibleTypes parent.name ∧
    ∃ name, c.OpensBranch parent selections name ∧ type ∈ c.schema.possibleTypes name

/-- For each type that selections single out, they have the keys that others select for every type. -/
def Repeats (c : Compiler) (parent : TypeDefinition) (selections others : List Selection) : Prop :=
  ∀ type, c.SinglesOut parent selections type → ∀ key, c.Selects parent others none key →
    c.KeepsFor parent selections type key

/-- Two selections on a type single out different object types, and each one repeats the other. -/
structure Parted (c : Compiler) (parent : TypeDefinition) (first second : List Selection) : Prop where
  types : ∀ type, c.SinglesOut parent first type → ¬c.SinglesOut parent second type
  left : c.Repeats parent first second
  right : c.Repeats parent second first

section Shapes

variable (compiled : c.shape stack parent selections = .ok shape)

include compiled

theorem alternatives_of_shape : Alternatives shape.fields shape.cases := by
  obtain ⟨s, _, rfl⟩ := shape_eq_ok_iff.mp compiled
  exact alternatives_finish c parent s

/-- The types that the cases list are those that the selections single out. -/
theorem exists_case_iff (type : String) :
    (∃ typeCase ∈ shape.cases, type ∈ typeCase.possibleTypes) ↔ c.SinglesOut parent selections type := by
  obtain ⟨s, run, rfl⟩ := shape_eq_ok_iff.mp compiled
  constructor
  · rintro ⟨typeCase, member, listed⟩
    obtain ⟨⟨resolved, inResolved, applies⟩, _⟩ := ResolvedBranch.eq_caseOf_of_lists member listed
    obtain ⟨branch, inBranches, rfl⟩ := List.mem_map.mp inResolved
    obtain ⟨admitted, possible⟩ := (Branch.mem_types_resolve ..).mp applies
    exact ⟨possible, branch.condition, run.opensBranch_of_mem inBranches, admitted⟩
  · rintro ⟨possible, name, opens, admitted⟩
    obtain ⟨branch, inBranches, rfl⟩ := List.mem_map.mp ((run.mem_conditions_empty_iff name).mpr opens)
    exact ResolvedBranch.exists_lists_of_applies s.target (List.mem_map_of_mem inBranches)
      ((Branch.mem_types_resolve ..).mpr ⟨admitted, possible⟩)

theorem exists_type_of_case {typeCase : TypeCase ResponseField} (member : typeCase ∈ shape.cases) :
    ∃ type ∈ typeCase.possibleTypes, c.OpensBranch parent selections typeCase.condition ∧
      type ∈ c.schema.possibleTypes typeCase.condition ∨ typeCase.condition = type := by
  obtain ⟨s, run, rfl⟩ := shape_eq_ok_iff.mp compiled
  obtain ⟨type, listed, _, named, _⟩ := ResolvedBranch.exists_first member
  refine ⟨type, listed, ?_⟩
  rw [named]
  rcases ResolvedBranch.groupOf_cases _ type with ⟨resolved, inResolved, applies, same, _⟩ | alone
  · obtain ⟨branch, inBranches, rfl⟩ := List.mem_map.mp inResolved
    rw [same]
    exact .inl ⟨run.opensBranch_of_mem inBranches, ((Branch.mem_types_resolve ..).mp applies).1⟩
  · exact .inr alone

theorem cases_eq_nil_iff : shape.cases = [] ↔ ∀ type, ¬c.SinglesOut parent selections type := by
  constructor
  · intro none type singled
    obtain ⟨typeCase, member, _⟩ := (exists_case_iff compiled type).mpr singled
    rw [none] at member
    cases member
  · intro none
    rw [List.eq_nil_iff_forall_not_mem]
    intro typeCase member
    obtain ⟨type, listed, _⟩ := exists_type_of_case compiled member
    exact none type ((exists_case_iff compiled type).mp ⟨typeCase, member, listed⟩)

theorem mem_keys_fields_iff (key : String) :
    key ∈ keys shape.fields ↔ c.Selects parent selections none key := by
  obtain ⟨s, run, rfl⟩ := shape_eq_ok_iff.mp compiled
  exact run.mem_keysAt_iff none key

theorem mem_keys_case_iff (distinct : c.schema.Distinct) (members : c.schema.UnionsOfObjects)
    {typeCase : TypeCase ResponseField} (member : typeCase ∈ shape.cases)
    (listed : type ∈ typeCase.possibleTypes) (key : String) :
    key ∈ keys typeCase.fields ↔ c.KeepsFor parent selections type key := by
  have possible := ((exists_case_iff compiled type).mp ⟨typeCase, member, listed⟩).1
  rw [← mem_keys_fieldsOf_iff distinct members compiled possible]
  obtain ⟨s, _, rfl⟩ := shape_eq_ok_iff.mp compiled
  unfold Shape.fieldsOf
  split
  · rename_i other found
    have also : type ∈ other.possibleTypes := by simpa using List.find?_some found
    rw [finish_listed_once member (List.mem_of_find?_eq_some found) listed also]
  · rename_i missing
    exact absurd (by simpa using listed) (List.find?_eq_none.mp missing typeCase member)

end Shapes

section Pairs

variable (one : c.shape stack parent first = .ok left) (two : c.shape stack parent second = .ok right)

include one two

theorem types_disjoint_iff :
    (∀ ofFirst ∈ left.cases, ∀ ofSecond ∈ right.cases,
      ∀ type ∈ ofFirst.possibleTypes, type ∉ ofSecond.possibleTypes) ↔
    ∀ type, c.SinglesOut parent first type → ¬c.SinglesOut parent second type := by
  constructor
  · intro disjoint type singled also
    obtain ⟨ofFirst, inLeft, listed⟩ := (exists_case_iff one type).mpr singled
    obtain ⟨ofSecond, inRight, alsoListed⟩ := (exists_case_iff two type).mpr also
    exact disjoint ofFirst inLeft ofSecond inRight type listed alsoListed
  · intro apart ofFirst inLeft ofSecond inRight type listed alsoListed
    exact apart type ((exists_case_iff one type).mp ⟨ofFirst, inLeft, listed⟩)
      ((exists_case_iff two type).mp ⟨ofSecond, inRight, alsoListed⟩)

variable (distinct : c.schema.Distinct) (members : c.schema.UnionsOfObjects)

include distinct members

/-- Selections that single out different types have no case of one name. -/
theorem conditions_ne_of_types
    (apart : ∀ type, c.SinglesOut parent first type → ¬c.SinglesOut parent second type) :
    ∀ ofFirst ∈ left.cases, ∀ ofSecond ∈ right.cases, ofFirst.condition ≠ ofSecond.condition := by
  intro ofFirst inLeft ofSecond inRight same
  obtain ⟨type, listed, named⟩ := exists_type_of_case one inLeft
  obtain ⟨other, alsoListed, alsoNamed⟩ := exists_type_of_case two inRight
  have singled := (exists_case_iff one type).mp ⟨ofFirst, inLeft, listed⟩
  have alsoSingled := (exists_case_iff two other).mp ⟨ofSecond, inRight, alsoListed⟩
  have itself {name : String} (possible : name ∈ c.schema.possibleTypes parent.name) :
      c.schema.possibleTypes name = [name] := by
    obtain ⟨object, found, isObject⟩ := distinct.object_of_possible members possible
    exact Schema.possibleTypes_of_isObject found isObject
  have admitted : other ∈ c.schema.possibleTypes ofFirst.condition := by
    rw [same]
    rcases alsoNamed with ⟨_, admitted⟩ | alone
    · exact admitted
    · rw [alone, itself alsoSingled.1]
      exact List.mem_singleton_self _
  rcases named with ⟨opens, _⟩ | alone
  · exact apart other ⟨alsoSingled.1, _, opens, admitted⟩ alsoSingled
  · rw [alone, itself singled.1, List.mem_singleton] at admitted
    exact apart type singled (admitted ▸ alsoSingled)

/-- A selection has in its cases the keys that the other one has for all types, exactly if it repeats
    that one. -/
theorem keys_subset_iff_repeats :
    (∀ ofFirst ∈ left.cases, keys right.fields ⊆ keys ofFirst.fields) ↔
      c.Repeats parent first second := by
  constructor
  · intro subset type singled key selects
    obtain ⟨ofFirst, inLeft, listed⟩ := (exists_case_iff one type).mpr singled
    rw [← mem_keys_case_iff one distinct members inLeft listed]
    exact subset ofFirst inLeft ((mem_keys_fields_iff two key).mpr selects)
  · intro repeats ofFirst inLeft key selected
    obtain ⟨type, listed, _⟩ := exists_type_of_case one inLeft
    rw [mem_keys_case_iff one distinct members inLeft listed]
    exact repeats type ((exists_case_iff one type).mp ⟨ofFirst, inLeft, listed⟩) key
      ((mem_keys_fields_iff two key).mp selected)

/-- Compiled selections are beside each other exactly if the document parts them. -/
theorem beside_iff_parted : left.Beside right ↔ c.Parted parent first second := by
  constructor
  · intro beside
    exact ⟨(types_disjoint_iff one two).mp beside.types,
      (keys_subset_iff_repeats one two distinct members).mp beside.keysLeft,
      (keys_subset_iff_repeats two one distinct members).mp beside.keysRight⟩
  · intro parted
    exact ⟨conditions_ne_of_types one two distinct members parted.types,
      (types_disjoint_iff one two).mpr parted.types,
      (keys_subset_iff_repeats one two distinct members).mpr parted.left,
      (keys_subset_iff_repeats two one distinct members).mpr parted.right⟩

/-- The merged cases of selections that single out different types are alternatives exactly if each of
    the two repeats the other. -/
theorem alternatives_merge_iff_repeats
    (apart : ∀ type, c.SinglesOut parent first type → ¬c.SinglesOut parent second type) :
    Alternatives (left.merge right).fields (left.merge right).cases ↔
      c.Repeats parent first second ∧ c.Repeats parent second first := by
  rw [Shape.alternatives_merge_iff (wellKeyed_of_shape one) (wellKeyed_of_shape two)
    (alternatives_of_shape one) (alternatives_of_shape two),
    Shape.mergeable_iff_beside (conditions_ne_of_types one two distinct members apart)
      ((types_disjoint_iff one two).mpr apart), beside_iff_parted one two distinct members]
  exact ⟨fun parted => ⟨parted.left, parted.right⟩, fun repeats => ⟨apart, repeats.1, repeats.2⟩⟩

end Pairs

theorem Run.of_unplaced {conditional : Bool} {twins : List Selection} {s s' : Collection}
    (alike : unplacedAll selections = unplacedAll twins)
    (run : c.Run stack parent conditional selections s s') : c.Run stack parent conditional twins s s' := by
  have same : c.collectAll (c.expand stack) parent conditional selections s =
      (c.withFragments c.fragments).collectAll (c.expand stack) parent conditional twins s :=
    collectAll_congr alike (fun _ _ => rfl) parent conditional s
  rw [← collectAll_eq_ok_iff] at run ⊢
  exact same ▸ run

theorem shape_of_unplaced {twins : List Selection} (alike : unplacedAll selections = unplacedAll twins)
    (compiled : c.shape stack parent selections = .ok shape) : c.shape stack parent twins = .ok shape := by
  obtain ⟨s, run, rfl⟩ := shape_eq_ok_iff.mp compiled
  exact shape_of_run (run.of_unplaced alike)

def IsBranch (c : Compiler) (parent : TypeDefinition) (selection : Selection) : Prop :=
  ∃ condition inner, c.FragmentOn parent selection condition inner ∧ c.opens parent condition = true

theorem Run.fields_of_branches {conditional : Bool} {s s' : Collection}
    (run : c.Run stack parent conditional selections s s')
    (branches : ∀ selection ∈ selections, c.IsBranch parent selection) :
    s'.target.fields = s.target.fields := by
  induction run with
  | nil => rfl
  | leaf => obtain ⟨_, _, fragment, _⟩ := branches _ List.mem_cons_self; cases fragment
  | composite => obtain ⟨_, _, fragment, _⟩ := branches _ List.mem_cons_self; cases fragment
  | merge fragment fresh applies inside after below ih =>
    obtain ⟨_, _, other, opened⟩ := branches _ List.mem_cons_self
    obtain ⟨rfl, rfl⟩ := fragment.unique other
    rw [applies] at opened
    cases opened
  | @branch _ _ _ selection _ _ _ s _ _ fragment fresh opened inside after below ih =>
    rw [ih fun selection member => branches selection (List.mem_cons_of_mem _ member)]
    exact s.fieldsAt_note selection none
  | mention unmerged =>
    obtain ⟨_, _, fragment, _⟩ := branches _ List.mem_cons_self
    cases fragment with
    | spread merged =>
      rw [unmerged] at merged
      cases merged

/-- Two selections are apart if they begin alike, go on with nothing but branches, and single out
    different types. -/
theorem apart_of_branches (distinct : c.schema.Distinct) (members : c.schema.UnionsOfObjects)
    {shared twins own more : List Selection} (alike : unplacedAll shared = unplacedAll twins)
    (ownBranches : ∀ selection ∈ own, c.IsBranch parent selection)
    (moreBranches : ∀ selection ∈ more, c.IsBranch parent selection)
    (apart : ∀ type, c.SinglesOut parent (shared ++ own) type → ¬c.SinglesOut parent (twins ++ more) type)
    (one : c.shape stack parent (shared ++ own) = .ok left)
    (two : c.shape stack parent (twins ++ more) = .ok right) : left.Apart right := by
  have same : right.fields = left.fields := by
    obtain ⟨s, runFirst, rfl⟩ := shape_eq_ok_iff.mp one
    obtain ⟨t, runSecond, rfl⟩ := shape_eq_ok_iff.mp two
    obtain ⟨middle, begin, rest⟩ := run_append.mp runFirst
    obtain ⟨other, beginTwin, restTwin⟩ := run_append.mp runSecond
    cases (begin.of_unplaced alike).unique beginTwin
    exact (restTwin.fields_of_branches moreBranches).trans (rest.fields_of_branches ownBranches).symm
  have merged : mergeAll left.fields right.fields = left.fields := by
    rw [same, mergeAll_self (wellKeyed_of_shape one).fields]
  exact ⟨fun _ => merged, fun _ => by rw [merged, same],
    conditions_ne_of_types one two distinct members apart, (types_disjoint_iff one two).mpr apart⟩

section Repeated

variable {type : TypeDefinition} {head : FieldHead} {definition : FieldDefinition}
  (looked : c.fieldType parent head.name = .ok (definition, type)) (hasFields : type.isComposite)
  {position : Position} {span other whole : Span} {repeated joined : Shape}

include looked hasFields

/-- A field that is selected twice is what it is with both selections in one, if these begin alike, go on
    with nothing but branches, and single out different types. -/
theorem repeated_eq_joined (distinct : c.schema.Distinct) (members : c.schema.UnionsOfObjects)
    {shared twins own more : List Selection} (alike : unplacedAll shared = unplacedAll twins)
    (ownBranches : ∀ selection ∈ own, c.IsBranch type selection)
    (moreBranches : ∀ selection ∈ more, c.IsBranch type selection)
    (apart : ∀ object, c.SinglesOut type (shared ++ own) object → ¬c.SinglesOut type (twins ++ more) object)
    (twice : c.shape stack parent [.field head span (shared ++ own),
      .field { head with position } other (twins ++ more)] = .ok repeated)
    (once : c.shape stack parent [.field head whole (shared ++ own ++ (twins ++ more))] = .ok joined) :
    repeated = joined := by
  obtain ⟨left, right, one, two, rfl⟩ := (shape_fields_eq_ok_iff looked hasFields).mp twice
  obtain ⟨below, both, rfl⟩ := (shape_field_eq_ok_iff looked hasFields).mp once
  obtain ⟨cases, also, _, agree⟩ := shape_append one two
  cases both.symm.trans also
  rw [agree (apart_of_branches distinct members alike ownBranches moreBranches apart one two)]

/-- A field that is selected twice is what it is with both selections in one only if they are mergeable,
    and if they single out different types only if each of the two repeats the other. -/
theorem mergeable_of_repeated_eq_joined {first second : List Selection}
    (twice : c.shape stack parent [.field head span first, .field { head with position } other second] =
      .ok repeated)
    (once : c.shape stack parent [.field head whole (first ++ second)] = .ok repeated) :
    ∃ left right, c.shape stack type first = .ok left ∧ c.shape stack type second = .ok right ∧
      left.Mergeable right ∧ (c.schema.Distinct → c.schema.UnionsOfObjects →
        (∀ object, c.SinglesOut type first object → ¬c.SinglesOut type second object) →
        c.Repeats type first second ∧ c.Repeats type second first) := by
  obtain ⟨left, right, one, two, rfl⟩ := (shape_fields_eq_ok_iff looked hasFields).mp twice
  obtain ⟨below, both, same⟩ := (shape_field_eq_ok_iff looked hasFields).mp once
  obtain ⟨cases, also, alternatives, _⟩ := shape_append one two
  cases both.symm.trans also
  have kept : (left.merge right).cases = cases :=
    (List.cons.inj (congrArg (fun shape => shape.fields.map ResponseField.cases) same)).1
  rw [← kept] at alternatives
  refine ⟨left, right, one, two, ?_, ?_⟩
  · exact (Shape.alternatives_merge_iff (wellKeyed_of_shape one) (wellKeyed_of_shape two)
      (alternatives_of_shape one) (alternatives_of_shape two)).mp alternatives
  · intro distinct members apart
    exact (alternatives_merge_iff_repeats one two distinct members apart).mp alternatives

end Repeated

/-- What selections are compiled to agrees if they are the same up to places, or if none of them singles
    out a type. -/
theorem casesAgree_of_unplaced {other : TypeDefinition} {others : List Selection}
    (alike : parent = other ∧ unplacedAll selections = unplacedAll others ∨
      (∀ type, ¬c.SinglesOut parent selections type) ∧ ∀ type, ¬c.SinglesOut other others type) :
    c.CasesAgree parent selections other others := by
  intro left right one two
  rcases alike with ⟨rfl, same⟩ | ⟨noLeft, noRight⟩
  · exact .inl (Except.ok.inj ((shape_of_unplaced same one).symm.trans two))
  · exact .inr ⟨(cases_eq_nil_iff one).mpr noLeft, (cases_eq_nil_iff two).mpr noRight⟩

/-- Selections on one type are compatible if they are the same up to places, or if the document parts
    them. -/
theorem compatible_of_parted (distinct : c.schema.Distinct) (members : c.schema.UnionsOfObjects)
    (alike : unplacedAll first = unplacedAll second ∨ c.Parted parent first second) :
    c.Compatible parent first parent second := by
  intro left right one two
  rcases alike with same | parted
  · exact .inl (Except.ok.inj ((shape_of_unplaced same one).symm.trans two))
  · exact .inr ((beside_iff_parted one two distinct members).mpr parted)

end Compiler

/-- If selections that meet under one key are on one type and the same up to places or parted by the
    document, the cases of every field and of every fragment are alternatives. -/
theorem Document.alternatives_of_parted {items : List SchemaItem} {schema : Schema}
    (built : Schema.ofItems items = .ok schema) (members : schema.UnionsOfObjects) {options : Options}
    {document : Document} {compiled : Compiled} (done : document.compile schema options = .ok compiled)
    (parted : ∀ root start, document.Starts schema root start →
      ∀ parent selections other others,
        (document.compiler schema options.mergeSpreads).Meets root start parent selections other others →
        parent = other ∧ (unplacedAll selections = unplacedAll others ∨
          (document.compiler schema options.mergeSpreads).Parted parent selections others)) :
    ∀ field, compiled.Has field → Alternatives field.fields field.cases := by
  have compatible (root : TypeDefinition) (start : List Selection)
      (starts : document.Starts schema root start) (parent : TypeDefinition) (selections : List Selection)
      (other : TypeDefinition) (others : List Selection)
      (meets : (document.compiler schema options.mergeSpreads).Meets root start parent selections other
        others) :
      (document.compiler schema options.mergeSpreads).Compatible parent selections other others := by
    obtain ⟨rfl, either⟩ := parted root start starts _ _ _ _ meets
    exact Compiler.compatible_of_parted (Schema.distinct_of_ofItems built) members either
  rintro field (⟨operation, member, within⟩ | ⟨fragment, member, within⟩)
  · obtain ⟨root, start, starts, sourced⟩ := Document.sourced_of_operation done member
    exact Compiler.alternatives_of_within (compatible root start starts) within sourced
  · obtain ⟨root, start, starts, sourced⟩ := Document.sourced_of_fragment done member
    exact Compiler.alternatives_of_within (compatible root start starts) within (by simpa using sourced)

/-- `x ... on B { y }` and `x ... on U { x }` both single out a type, and are parted. -/
theorem Overlap.parted_flat_otherwise :
    ((document []).compiler schema true).Parted interfaceA flat otherwise := by
  have one : ((document []).compiler schema true).shape [] interfaceA flat = .ok flatShape := rfl
  have two : ((document []).compiler schema true).shape [] interfaceA otherwise = .ok otherwiseShape := rfl
  have beside : flatShape.Beside otherwiseShape := by
    constructor
    · simp [flatShape, otherwiseShape]
    · simp [flatShape, otherwiseShape]
    · simp only [flatShape, otherwiseShape, List.forall_mem_singleton]
      decide
    · simp only [flatShape, otherwiseShape, List.forall_mem_singleton]
      decide
  exact (Compiler.beside_iff_parted one two (Schema.distinct_of_ofItems built) unionsOfObjects).mp beside

end QueryTypes
