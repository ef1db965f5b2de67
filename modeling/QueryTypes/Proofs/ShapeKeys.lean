import QueryTypes.Proofs.SchemaTypes
import QueryTypes.Shape.Collect

namespace QueryTypes

namespace ResponseField

def keys (fields : List ResponseField) : List String := fields.map ResponseField.responseName

theorem map_upsert {α : Type} (key : α → String) (name : String) (update : α → α) (new : α)
    (xs : List α) (kept : ∀ x, key (update x) = key x) (named : key new = name) :
    (upsert (key · == name) update new xs).map key = insertNew (xs.map key) name := by
  induction xs with
  | nil => simp [upsert, insertNew, named]
  | cons head rest ih =>
    unfold upsert
    by_cases same : key head = name
    · simp [same, kept, insertNew]
    · have skip : ¬(key head == name) = true := by simpa using same
      rw [if_neg skip, List.map_cons, ih]
      by_cases present : name ∈ rest.map key
      · simp [insertNew, present]
      · simp [insertNew, present, Ne.symm same]

theorem keys_mergeInto (into : List ResponseField) (field : ResponseField) :
    keys (field.mergeInto into) = insertNew (keys into) field.responseName := by
  obtain ⟨name, fieldName, type, description, isConditional, fields, spreads, cases⟩ := field
  rw [mergeInto]
  exact map_upsert ResponseField.responseName name _ _ into (fun _ => by rfl) rfl

theorem keys_mergeAll (into fields : List ResponseField) :
    keys (mergeAll into fields) = insertAll (keys into) (keys fields) := by
  induction fields generalizing into with
  | nil => rw [mergeAll]; rfl
  | cons field rest ih =>
    rw [mergeAll, ih, keys_mergeInto]
    rfl

end ResponseField

open ResponseField

namespace ResolvedBranch

/-- Conditions are unique, and one that is the name of an object type which a branch applies to
    admits this type only. -/
structure Separable (branches : List ResolvedBranch) : Prop where
  unique : (branches.map (·.condition)).Nodup
  exact : ∀ branch ∈ branches, ∀ other ∈ branches, branch.condition ∈ other.types →
    ∀ type ∈ branch.types, type = branch.condition

variable {branches : List ResolvedBranch}

theorem mem_applying {branch : ResolvedBranch} {type : String} :
    branch ∈ applying branches type ↔ branch ∈ branches ∧ type ∈ branch.types := by
  simp [applying]

theorem mostSpecific?_eq_some {branch : ResolvedBranch} (found : mostSpecific? branches = some branch) :
    branch ∈ branches ∧ ∀ other ∈ branches, ∀ type ∈ branch.types, type ∈ other.types := by
  refine ⟨List.mem_of_find?_eq_some found, ?_⟩
  simpa using List.find?_some found

theorem groupOf_cases (branches : List ResolvedBranch) (type : String) :
    (∃ branch ∈ branches, type ∈ branch.types ∧ groupOf branches type = branch.condition ∧
      ∀ other ∈ branches, type ∈ other.types → ∀ t ∈ branch.types, t ∈ other.types) ∨
    groupOf branches type = type := by
  unfold groupOf
  cases found : mostSpecific? (applying branches type) with
  | none => exact Or.inr rfl
  | some branch =>
    obtain ⟨member, least⟩ := mostSpecific?_eq_some found
    obtain ⟨member, applies⟩ := mem_applying.mp member
    refine Or.inl ⟨branch, member, applies, rfl, ?_⟩
    intro other listed admits
    exact least other (mem_applying.mpr ⟨listed, admits⟩)

theorem Separable.eq_of_condition (separable : Separable branches) {branch other : ResolvedBranch}
    (member : branch ∈ branches) (listed : other ∈ branches)
    (same : branch.condition = other.condition) : branch = other :=
  eq_of_key_eq (fun branch => branch.condition) separable.unique member listed same

/-- A branch that applies to a type applies to every type of the same group. -/
theorem Separable.applies_of_groupOf (separable : Separable branches) {type other : String}
    (same : groupOf branches type = groupOf branches other)
    (covered : ∃ branch ∈ branches, other ∈ branch.types) {branch : ResolvedBranch}
    (member : branch ∈ branches) (applies : type ∈ branch.types) : other ∈ branch.types := by
  rcases groupOf_cases branches type with ⟨first, inFirst, ofFirst, named, least⟩ | alone
  · rcases groupOf_cases branches other with ⟨second, inSecond, ofSecond, named', _⟩ | alone'
    · have equal : first = second := by
        apply separable.eq_of_condition inFirst inSecond
        rw [← named, ← named', same]
      subst equal
      exact least branch member applies other ofSecond
    · -- the group of `other` is itself, and bears the name of a branch that applies to `type`
      obtain ⟨cover, inCover, ofCover⟩ := covered
      have condition : first.condition = other := by rw [← named, same, alone']
      have self : type = first.condition :=
        separable.exact first inFirst cover inCover (condition ▸ ofCover) type ofFirst
      rwa [← condition, ← self]
  · rcases groupOf_cases branches other with ⟨second, inSecond, ofSecond, named', _⟩ | alone'
    · have condition : second.condition = type := by rw [← named', ← same, alone]
      have self : other = second.condition :=
        separable.exact second inSecond branch member (condition ▸ applies) other ofSecond
      rwa [self, condition]
    · rwa [← alone', ← same, alone]

def groupMembers (branches : List ResolvedBranch) (group : String) : List String :=
  (distinct (branches.flatMap (·.types))).filter (groupOf branches · == group)

theorem mem_groupMembers {group type : String} :
    type ∈ groupMembers branches group ↔
      (∃ branch ∈ branches, type ∈ branch.types) ∧ groupOf branches type = group := by
  simp [groupMembers]

theorem exclusive_eq (base : Collected) (branches : List ResolvedBranch) :
    exclusive base branches =
      (distinct ((distinct (branches.flatMap (·.types))).map (groupOf branches))).map fun group =>
        caseOf base branches group (groupMembers branches group) := by
  simp [exclusive, groupMembers, List.filter_map, Function.comp_def]

theorem mem_exclusive {base : Collected} {typeCase : TypeCase ResponseField} :
    typeCase ∈ exclusive base branches ↔
      ∃ type, (∃ branch ∈ branches, type ∈ branch.types) ∧
        typeCase = caseOf base branches (groupOf branches type)
          (groupMembers branches (groupOf branches type)) := by
  simp only [exclusive_eq, List.mem_map, mem_distinct, List.mem_flatMap]
  constructor
  · rintro ⟨group, ⟨type, covered, rfl⟩, rfl⟩
    exact ⟨type, covered, rfl⟩
  · rintro ⟨type, covered, rfl⟩
    exact ⟨groupOf branches type, ⟨type, covered, rfl⟩, rfl⟩

theorem eq_caseOf_of_lists {base : Collected} {typeCase : TypeCase ResponseField} {type : String}
    (member : typeCase ∈ exclusive base branches) (listed : type ∈ typeCase.possibleTypes) :
    (∃ branch ∈ branches, type ∈ branch.types) ∧
      typeCase = caseOf base branches (groupOf branches type)
        (groupMembers branches (groupOf branches type)) := by
  obtain ⟨other, _, rfl⟩ := mem_exclusive.mp member
  obtain ⟨covered, same⟩ := mem_groupMembers.mp listed
  exact ⟨covered, by rw [same]⟩

/-- No type is listed by two cases. -/
theorem exclusive_listed_once {base : Collected} {left right : TypeCase ResponseField} {type : String}
    (inLeft : left ∈ exclusive base branches) (inRight : right ∈ exclusive base branches)
    (listedLeft : type ∈ left.possibleTypes) (listedRight : type ∈ right.possibleTypes) :
    left = right :=
  (eq_caseOf_of_lists inLeft listedLeft).2.trans (eq_caseOf_of_lists inRight listedRight).2.symm

theorem exists_lists_of_applies (base : Collected) {branch : ResolvedBranch} {type : String}
    (member : branch ∈ branches) (applies : type ∈ branch.types) :
    ∃ typeCase ∈ exclusive base branches, type ∈ typeCase.possibleTypes := by
  have covered : ∃ branch ∈ branches, type ∈ branch.types := ⟨branch, member, applies⟩
  exact ⟨_, mem_exclusive.mpr ⟨type, covered, rfl⟩, mem_groupMembers.mpr ⟨covered, rfl⟩⟩

theorem mem_keys_foldl (parts : List ResolvedBranch) (fields : List ResponseField) (key : String) :
    key ∈ keys (parts.foldl (fun fields part => mergeAll fields part.content.fields) fields) ↔
      key ∈ keys fields ∨ ∃ part ∈ parts, key ∈ keys part.content.fields := by
  induction parts generalizing fields with
  | nil => simp
  | cons part rest ih =>
    rw [List.foldl_cons, ih, keys_mergeAll]
    simp [or_assoc]

theorem pairwise_exclusive (base : Collected) (branches : List ResolvedBranch) :
    (exclusive base branches).Pairwise fun left right =>
      ∀ type ∈ left.possibleTypes, type ∉ right.possibleTypes := by
  rw [exclusive_eq, List.pairwise_map]
  apply List.Pairwise.imp _ (nodup_distinct _)
  intro left right differ type inLeft inRight
  obtain ⟨_, group⟩ := mem_groupMembers.mp inLeft
  obtain ⟨_, other⟩ := mem_groupMembers.mp inRight
  exact differ (group.symm.trans other)

theorem keys_subset_of_mem_exclusive {base : Collected} {typeCase : TypeCase ResponseField}
    (member : typeCase ∈ exclusive base branches) : keys base.fields ⊆ keys typeCase.fields := by
  obtain ⟨type, _, rfl⟩ := mem_exclusive.mp member
  intro key selected
  exact (mem_keys_foldl _ _ key).mpr (Or.inl selected)

/-- A case has the keys of the base and of all branches that apply to any one of its types. -/
theorem Separable.mem_keys_of_lists (separable : Separable branches) {base : Collected}
    {typeCase : TypeCase ResponseField} {type : String}
    (member : typeCase ∈ exclusive base branches) (listed : type ∈ typeCase.possibleTypes)
    (key : String) :
    key ∈ keys typeCase.fields ↔ key ∈ keys base.fields ∨
      ∃ branch ∈ branches, type ∈ branch.types ∧ key ∈ keys branch.content.fields := by
  obtain ⟨covered, rfl⟩ := eq_caseOf_of_lists member listed
  unfold caseOf
  -- the first type of the group stands for `type`
  cases members : groupMembers branches (groupOf branches type) with
  | nil =>
    have present := mem_groupMembers.mpr ⟨covered, rfl⟩
    rw [members] at present
    cases present
  | cons first rest =>
    have inGroup : first ∈ groupMembers branches (groupOf branches type) := by simp [members]
    obtain ⟨coveredFirst, same⟩ := mem_groupMembers.mp inGroup
    simp only [mem_keys_foldl, mem_applying]
    apply or_congr_right
    constructor
    · rintro ⟨branch, ⟨inBranches, applies⟩, selected⟩
      exact ⟨branch, inBranches, separable.applies_of_groupOf same covered inBranches applies,
        selected⟩
    · rintro ⟨branch, inBranches, applies, selected⟩
      exact ⟨branch, ⟨inBranches,
        separable.applies_of_groupOf same.symm coveredFirst inBranches applies⟩, selected⟩

end ResolvedBranch

theorem Branch.mem_types_resolve (schema : Schema) (scope : List String) (branch : Branch)
    (type : String) :
    type ∈ (branch.resolve schema scope).types ↔
      type ∈ schema.possibleTypes branch.condition ∧ type ∈ scope := by
  simp [resolve]

theorem Branch.separable_resolve {schema : Schema} (distinct : schema.Distinct)
    (members : schema.UnionsOfObjects) {branches : List Branch}
    (unique : (branches.map Branch.condition).Nodup) (scope : List String) :
    ResolvedBranch.Separable (branches.map (Branch.resolve schema scope)) := by
  refine ⟨by simpa [resolve, Function.comp_def] using unique, ?_⟩
  intro resolved inBranches other inOthers named type applies
  obtain ⟨branch, _, rfl⟩ := List.mem_map.mp inBranches
  obtain ⟨second, _, rfl⟩ := List.mem_map.mp inOthers
  obtain ⟨possible, _⟩ := (mem_types_resolve schema scope second _).mp named
  obtain ⟨object, found, isObject⟩ := distinct.object_of_possible members possible
  obtain ⟨admitted, _⟩ := (mem_types_resolve schema scope branch type).mp applies
  have only : schema.possibleTypes branch.condition = [branch.condition] :=
    Schema.possibleTypes_of_isObject found isObject
  rw [only] at admitted
  exact List.mem_singleton.mp admitted

/-- The fields of a value of an object type: those of the case that lists the type, or else those
    that are selected for all types. -/
def Shape.fieldsOf (shape : Shape) (type : String) : List ResponseField :=
  match shape.cases.find? (·.possibleTypes.contains type) with
  | some typeCase => typeCase.fields
  | none => shape.fields

/-- The cases list different object types, and each one has the keys that are selected for all
    types. -/
structure Alternatives (fields : List ResponseField) (cases : List (TypeCase ResponseField)) : Prop where
  apart : cases.Pairwise fun left right => ∀ type ∈ left.possibleTypes, type ∉ right.possibleTypes
  complete : ∀ typeCase ∈ cases, keys fields ⊆ keys typeCase.fields

namespace Compiler

variable {c : Compiler} {s : Collection} {parent : TypeDefinition}

theorem alternatives_finish (c : Compiler) (parent : TypeDefinition) (s : Collection) :
    Alternatives (c.finish parent s).fields (c.finish parent s).cases :=
  ⟨ResolvedBranch.pairwise_exclusive _ _, fun _ => ResolvedBranch.keys_subset_of_mem_exclusive⟩

theorem finish_listed_once {left right : TypeCase ResponseField} {type : String}
    (inLeft : left ∈ (c.finish parent s).cases) (inRight : right ∈ (c.finish parent s).cases)
    (listedLeft : type ∈ left.possibleTypes) (listedRight : type ∈ right.possibleTypes) :
    left = right :=
  ResolvedBranch.exclusive_listed_once inLeft inRight listedLeft listedRight

/-- The keys that a compiled selection has for an object type are those of the base and of all
    branches that admit the type. -/
theorem mem_keys_fieldsOf_finish (distinct : c.schema.Distinct) (members : c.schema.UnionsOfObjects)
    (unique : (s.branches.map Branch.condition).Nodup) {type : String}
    (possible : type ∈ c.schema.possibleTypes parent.name) (key : String) :
    key ∈ keys ((c.finish parent s).fieldsOf type) ↔ key ∈ keys s.target.fields ∨
      ∃ branch ∈ s.branches, type ∈ c.schema.possibleTypes branch.condition ∧
        key ∈ keys branch.content.fields := by
  let scope := c.schema.possibleTypes parent.name
  let resolved := s.branches.map (Branch.resolve c.schema scope)
  have applies (branch : Branch) : type ∈ (branch.resolve c.schema scope).types ↔
      type ∈ c.schema.possibleTypes branch.condition := by
    rw [Branch.mem_types_resolve]
    exact and_iff_left possible
  unfold Shape.fieldsOf
  split
  · rename_i typeCase found
    have member : typeCase ∈ ResolvedBranch.exclusive s.target resolved :=
      List.mem_of_find?_eq_some found
    have listed : type ∈ typeCase.possibleTypes := by simpa using List.find?_some found
    rw [(Branch.separable_resolve distinct members unique scope).mem_keys_of_lists member listed]
    apply or_congr_right
    constructor
    · rintro ⟨_, inResolved, admitted, selected⟩
      obtain ⟨branch, member, rfl⟩ := List.mem_map.mp inResolved
      exact ⟨branch, member, (applies branch).mp admitted, selected⟩
    · rintro ⟨branch, member, admitted, selected⟩
      exact ⟨_, List.mem_map_of_mem member, (applies branch).mpr admitted, selected⟩
  · -- no case lists the type, so no branch admits it
    rename_i missing
    constructor
    · exact Or.inl
    · rintro (selected | ⟨branch, member, admitted, _⟩)
      · exact selected
      · have inResolved : branch.resolve c.schema scope ∈ resolved := List.mem_map_of_mem member
        obtain ⟨typeCase, inCases, listed⟩ := ResolvedBranch.exists_lists_of_applies s.target
          inResolved ((applies branch).mpr admitted)
        have unlisted := List.find?_eq_none.mp missing typeCase inCases
        exact absurd (by simpa using listed) unlisted

end Compiler

end QueryTypes
