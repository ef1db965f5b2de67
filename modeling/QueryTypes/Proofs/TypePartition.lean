import QueryTypes.Proofs.ShapeKeys

namespace QueryTypes

open ResponseField

theorem ResponseField.mergeAll_eq_foldl (into fields : List ResponseField) :
    mergeAll into fields = fields.foldl (fun into field => field.mergeInto into) into := by
  induction fields generalizing into with
  | nil => rw [mergeAll, List.foldl_nil]
  | cons field rest ih => rw [mergeAll, List.foldl_cons, ih]

namespace ResolvedBranch

variable {branches : List ResolvedBranch} {base : Collected} {typeCase : TypeCase ResponseField} {type : String}

theorem map_condition_exclusive (base : Collected) (branches : List ResolvedBranch) :
    (exclusive base branches).map TypeCase.condition =
      distinct ((distinct (branches.flatMap (·.types))).map (groupOf branches)) := by
  simp [exclusive_eq, caseOf, Function.comp_def]

theorem nodup_possibleTypes_of_exclusive (member : typeCase ∈ exclusive base branches) :
    typeCase.possibleTypes.Nodup := by
  obtain ⟨type, _, rfl⟩ := mem_exclusive.mp member
  exact (nodup_distinct _).filter _

/-- A type that cases list at most once altogether is listed by exactly one if by any. -/
theorem countP_exclusive (base : Collected) (branches : List ResolvedBranch) (type : String) :
    (exclusive base branches).countP (type ∈ ·.possibleTypes) =
      if ∃ branch ∈ branches, type ∈ branch.types then 1 else 0 := by
  split
  · rename_i covered
    obtain ⟨branch, member, applies⟩ := covered
    obtain ⟨typeCase, inCases, listed⟩ := exists_lists_of_applies base member applies
    obtain ⟨before, after, whole⟩ := List.append_of_mem inCases
    have apart := pairwise_exclusive base branches
    rw [whole, List.pairwise_append, List.pairwise_cons] at apart
    obtain ⟨_, ⟨later, _⟩, earlier⟩ := apart
    have noneBefore : before.countP (type ∈ ·.possibleTypes) = 0 := by
      apply List.countP_eq_zero.mpr
      intro other inBefore lists
      exact earlier other inBefore typeCase List.mem_cons_self type (of_decide_eq_true lists) listed
    have noneAfter : after.countP (type ∈ ·.possibleTypes) = 0 := by
      apply List.countP_eq_zero.mpr
      intro other inAfter lists
      exact later other inAfter type listed (of_decide_eq_true lists)
    rw [whole, List.countP_append, List.countP_cons, noneBefore, noneAfter]
    simp [listed]
  · rename_i uncovered
    apply List.countP_eq_zero.mpr
    intro typeCase inCases lists
    exact uncovered (eq_caseOf_of_lists inCases (of_decide_eq_true lists)).1

/-- The branches that the first type of a group decides on are those of every type of the group. -/
theorem Separable.applying_of_groupOf (separable : Separable branches) {other : String}
    (same : groupOf branches type = groupOf branches other)
    (covered : ∃ branch ∈ branches, type ∈ branch.types)
    (otherCovered : ∃ branch ∈ branches, other ∈ branch.types) :
    applying branches type = applying branches other := by
  apply List.filter_congr
  intro branch member
  rw [Bool.eq_iff_iff, List.contains_iff_mem, List.contains_iff_mem]
  exact ⟨separable.applies_of_groupOf same otherCovered member,
    separable.applies_of_groupOf same.symm covered member⟩

/-- A case has what the branches of any one of its types collect, merged into the base in order. -/
theorem Separable.content_of_lists (separable : Separable branches)
    (member : typeCase ∈ exclusive base branches) (listed : type ∈ typeCase.possibleTypes) :
    typeCase.fields = ((applying branches type).flatMap (·.content.fields)).foldl
        (fun into field => field.mergeInto into) base.fields ∧
      typeCase.spreads = distinct ((applying branches type).flatMap (·.content.spreads)) := by
  obtain ⟨covered, rfl⟩ := eq_caseOf_of_lists member listed
  have present := mem_groupMembers.mpr ⟨covered, rfl⟩
  unfold caseOf
  cases members : groupMembers branches (groupOf branches type) with
  | nil =>
    rw [members] at present
    cases present
  | cons first rest =>
    have inGroup : first ∈ groupMembers branches (groupOf branches type) := by simp [members]
    obtain ⟨coveredFirst, same⟩ := mem_groupMembers.mp inGroup
    simp only [separable.applying_of_groupOf same coveredFirst covered, mergeAll_eq_foldl, List.foldl_flatMap,
      and_self]

end ResolvedBranch

namespace Branch

def admitting (schema : Schema) (type : String) (branches : List Branch) : List Branch :=
  branches.filter fun branch => (schema.possibleTypes branch.condition).contains type

section

variable {schema : Schema} {scope : List String} {type : String}

theorem applying_eq_admitting (possible : type ∈ scope) (branches : List Branch) :
    ResolvedBranch.applying (branches.map (resolve schema scope)) type =
      (admitting schema type branches).map (resolve schema scope) := by
  rw [ResolvedBranch.applying, admitting, List.filter_map]
  congr 1
  apply List.filter_congr
  intro branch _
  rw [Function.comp_apply, Bool.eq_iff_iff, List.contains_iff_mem, List.contains_iff_mem, mem_types_resolve]
  exact and_iff_left possible

theorem exists_covers_resolve (possible : type ∈ scope) {branches : List Branch} :
    (∃ resolved ∈ branches.map (resolve schema scope), type ∈ resolved.types) ↔
      ∃ branch ∈ branches, type ∈ schema.possibleTypes branch.condition := by
  constructor
  · rintro ⟨_, inResolved, applies⟩
    obtain ⟨branch, member, rfl⟩ := List.mem_map.mp inResolved
    exact ⟨branch, member, ((mem_types_resolve schema scope branch type).mp applies).1⟩
  · rintro ⟨branch, member, admits⟩
    exact ⟨_, List.mem_map_of_mem member, (mem_types_resolve schema scope branch type).mpr ⟨admits, possible⟩⟩

/-- Regrouping branches gives distinct conditions, lists each object type of the parent in exactly
    one case if some branch admits it and in none otherwise, and no other type. Every case has for
    each of its types the fields of exactly the branches that admit the type, merged into the base
    one by one in branch order, and their spreads without repeats. -/
theorem exclusive_partitions {items : List SchemaItem} (built : Schema.ofItems items = .ok schema)
    (members : schema.UnionsOfObjects) (parent : String) (base : Collected) {branches : List Branch}
    (unique : (branches.map Branch.condition).Nodup) :
    ((exclusive schema parent base branches).map TypeCase.condition).Nodup ∧
    (∀ type ∈ schema.possibleTypes parent,
      (exclusive schema parent base branches).countP (type ∈ ·.possibleTypes) =
        if ∃ branch ∈ branches, type ∈ schema.possibleTypes branch.condition then 1 else 0) ∧
    ∀ typeCase ∈ exclusive schema parent base branches,
      typeCase.possibleTypes ≠ [] ∧ typeCase.possibleTypes.Nodup ∧
      ∀ type ∈ typeCase.possibleTypes, type ∈ schema.possibleTypes parent ∧
        typeCase.fields =
          ((admitting schema type branches).flatMap (·.content.fields)).foldl
            (fun into field => field.mergeInto into) base.fields ∧
        typeCase.spreads = distinct ((admitting schema type branches).flatMap (·.content.spreads)) := by
  have separable := separable_resolve (Schema.distinct_of_ofItems built) members unique
    (schema.possibleTypes parent)
  refine ⟨?_, ?_, ?_⟩
  · rw [exclusive, ResolvedBranch.map_condition_exclusive]
    exact nodup_distinct _
  · intro type possible
    rw [exclusive, ResolvedBranch.countP_exclusive]
    simp only [exists_covers_resolve possible]
  · intro typeCase member
    refine ⟨?_, ResolvedBranch.nodup_possibleTypes_of_exclusive member, ?_⟩
    · obtain ⟨type, covered, rfl⟩ := ResolvedBranch.mem_exclusive.mp member
      exact List.ne_nil_of_mem (ResolvedBranch.mem_groupMembers.mpr ⟨covered, rfl⟩)
    · intro type listed
      obtain ⟨⟨resolved, inResolved, applies⟩, _⟩ := ResolvedBranch.eq_caseOf_of_lists member listed
      obtain ⟨branch, _, rfl⟩ := List.mem_map.mp inResolved
      have possible := ((mem_types_resolve schema _ branch type).mp applies).2
      obtain ⟨fields, spreads⟩ := separable.content_of_lists member listed
      rw [applying_eq_admitting possible, List.flatMap_map] at fields spreads
      exact ⟨possible, fields, spreads⟩

end

namespace Census

def text (name : String) : FieldDefinition := ⟨name, none, [], .named "String"⟩

/-- Persons are named and aged, pets named, robots aged and stones neither. -/
def items : List SchemaItem :=
  [.type ⟨"Query", none, .object [] [⟨"node", none, [], .named "Node"⟩]⟩,
    .type ⟨"Node", none, .interface [text "id"]⟩,
    .type ⟨"Named", none, .interface [text "name"]⟩,
    .type ⟨"Aged", none, .interface [text "age"]⟩,
    .type ⟨"Person", none, .object ["Node", "Named", "Aged"] [text "id", text "name", text "age"]⟩,
    .type ⟨"Pet", none, .object ["Node", "Named"] [text "id", text "name"]⟩,
    .type ⟨"Robot", none, .object ["Node", "Aged"] [text "id", text "age"]⟩,
    .type ⟨"Stone", none, .object ["Node"] [text "id"]⟩]

def schema : Schema := ⟨Schema.definitionsOf items, "Query", none, none⟩

def leaf (name : String) : ResponseField := ⟨name, name, .named "String", none, false, [], [], []⟩

/-- `id ... on Named { name ...Tag } ... on Aged { age }` -/
def branches : List Branch := [⟨"Named", [leaf "name"], ["Tag"]⟩, ⟨"Aged", [leaf "age"], []⟩]

def cases : List (TypeCase ResponseField) :=
  [⟨"Person", ["Person"], [leaf "id", leaf "name", leaf "age"], ["Tag"]⟩,
    ⟨"Named", ["Pet"], [leaf "id", leaf "name"], ["Tag"]⟩,
    ⟨"Aged", ["Robot"], [leaf "id", leaf "age"], []⟩]

end Census

/-- Two conditions that share some of their types only split them into three cases. -/
theorem exclusive_partitions_census :
    exclusive Census.schema "Node" ⟨[Census.leaf "id"], []⟩ Census.branches = Census.cases ∧
    Census.cases.countP ("Person" ∈ ·.possibleTypes) = 1 ∧
    Census.cases.countP ("Stone" ∈ ·.possibleTypes) = 0 ∧
    (Census.cases.map TypeCase.condition).Nodup := by
  have built : Schema.ofItems Census.items = .ok Census.schema := rfl
  have unique : (Census.branches.map Branch.condition).Nodup := by decide
  obtain ⟨conditions, count, _⟩ :=
    exclusive_partitions built (by decide) "Node" ⟨[Census.leaf "id"], []⟩ unique
  exact ⟨rfl, count "Person" (by decide), count "Stone" (by decide), conditions⟩

end Branch

end QueryTypes
