import QueryTypes.Proofs.WellKeyed

namespace QueryTypes

open ResponseField

def Collected.merge (a b : Collected) : Collected :=
  ⟨mergeAll a.fields b.fields, insertAll a.spreads b.spreads⟩

def Branch.absorb (existing branch : Branch) : Branch :=
  { existing with content := existing.content.merge branch.content }

@[simp] theorem Branch.condition_absorb (existing branch : Branch) :
    (existing.absorb branch).condition = existing.condition := rfl

namespace Collected

theorem merge_empty (a : Collected) : a.merge {} = a := by
  simp [merge, insertAll]

theorem empty_merge {a : Collected} (kind : a.WellKeyed) : ({} : Collected).merge a = a := by
  have fields : mergeAll [] a.fields = a.fields := nil_mergeAll kind.fields.keys
  have spreads : insertAll [] a.spreads = a.spreads := distinct_eq_self kind.spreads
  simp only [merge, fields, spreads]

end Collected

namespace Collection

/-- Two collections in one: what the second one has is merged into the first one, target into
    target and branch into branch. -/
def merge (a b : Collection) : Collection :=
  ⟨a.target.merge b.target, mergeBy Branch.condition Branch.absorb a.branches b.branches,
    insertAll a.leaves b.leaves⟩

def focus (a : Collection) (condition : String) : Collection :=
  ⟨contentAt a.branches condition,
    a.branches.map fun branch => if branch.condition = condition then ⟨condition, {}⟩ else branch,
    a.leaves⟩

variable {a t inner : Collection}

theorem merge_empty (a : Collection) : a.merge {} = a := by
  have target : a.target.merge {} = a.target := Collected.merge_empty _
  simp [merge, target, insertAll]

theorem condition_focus (a : Collection) (condition : String) :
    (a.focus condition).branches.map Branch.condition = a.branches.map Branch.condition := by
  unfold focus
  rw [List.map_map]
  apply List.map_congr_left
  intro branch _
  by_cases same : branch.condition = condition <;> simp [same]

theorem find?_focus (a : Collection) (condition name : String) :
    (a.focus condition).branches.find? (·.condition == name) =
      (a.branches.find? (·.condition == name)).map fun branch =>
        if branch.condition = condition then ⟨condition, {}⟩ else branch := by
  unfold focus
  rw [List.find?_map]
  congr 2
  funext branch
  by_cases same : branch.condition = condition <;> simp [same]

theorem find?_focus_of_ne (a : Collection) {condition name : String} (differ : name ≠ condition) :
    (a.focus condition).branches.find? (·.condition == name) =
      a.branches.find? (·.condition == name) := by
  rw [find?_focus]
  cases found : a.branches.find? (·.condition == name) with
  | none => rfl
  | some branch =>
    have named : branch.condition = name := by simpa using List.find?_some found
    simp [named, differ]

theorem WellKeyed.focus (kind : a.WellKeyed) (condition : String) : (a.focus condition).WellKeyed := by
  refine ⟨kind.contentAt condition, ?_, ?_⟩
  · rw [condition_focus]
    exact kind.conditions
  · intro branch member
    obtain ⟨old, inBranches, rfl⟩ := List.mem_map.mp member
    split
    · exact Collected.wellKeyed_empty
    · exact kind.contents old inBranches

theorem contentAt_mergeBy (kind : t.WellKeyed) (condition : String) :
    contentAt (mergeBy Branch.condition Branch.absorb a.branches t.branches) condition =
      (contentAt a.branches condition).merge (contentAt t.branches condition) := by
  have known := kind.contentAt condition
  unfold contentAt at known ⊢
  rw [find?_mergeBy Branch.condition_absorb kind.conditions]
  cases a.branches.find? (·.condition == condition) with
  | none =>
    rw [Option.merge_none_left]
    exact (Collected.empty_merge known).symm
  | some left =>
    cases t.branches.find? (·.condition == condition) with
    | none => exact (Collected.merge_empty _).symm
    | some right => rfl

theorem merge_record (a : Collection) (kind : t.WellKeyed) {field : ResponseField}
    (single : field.WellKeyed) (leaves : List String) :
    (a.merge t).record field leaves = a.merge (t.record field leaves) := by
  have fields : field.mergeInto (mergeAll a.target.fields t.target.fields) =
      mergeAll a.target.fields (field.mergeInto t.target.fields) := by
    have assoc : mergeAll (mergeAll a.target.fields t.target.fields) [field] =
        mergeAll a.target.fields (mergeAll t.target.fields [field]) :=
      mergeAll_assoc kind.target.fields (.single single)
    simpa only [mergeInto_eq, mergeAll_eq] using assoc
  have rest : insertAll (insertAll a.leaves t.leaves) leaves =
      insertAll a.leaves (insertAll t.leaves leaves) := (insertAll_assoc ..).symm
  simp only [record, addField, merge, Collected.merge, fields, rest]

theorem merge_addSpread (a t : Collection) (name : String) :
    (a.merge t).addSpread name = a.merge (t.addSpread name) := by
  simp only [addSpread, merge, Collected.merge, insertAll_insertNew]

theorem merge_note (a t : Collection) (selection : Selection) :
    (a.merge t).note selection = a.merge (t.note selection) := by
  unfold note
  cases selection.spreadName? with
  | none => rfl
  | some name => exact merge_addSpread a t name

/-- Replacing the entry of a condition after merging is replacing it in both parts before, if the
    two new entries merge into the replacement. -/
theorem putBy_mergeBy {left changed right : List Branch} (part whole : Branch)
    (uniqueLeft : (left.map Branch.condition).Nodup) (uniqueRight : (right.map Branch.condition).Nodup)
    (names : changed.map Branch.condition = left.map Branch.condition)
    (named : part.condition = whole.condition)
    (others : ∀ name, name ≠ whole.condition →
      changed.find? (·.condition == name) = left.find? (·.condition == name))
    (merged : Option.merge Branch.absorb (changed.find? (·.condition == whole.condition)) (some part) =
      some whole) :
    putBy Branch.condition (mergeBy Branch.condition Branch.absorb left right) whole =
      mergeBy Branch.condition Branch.absorb changed (putBy Branch.condition right part) := by
  have uniquePart : ((putBy Branch.condition right part).map Branch.condition).Nodup :=
    nodup_putBy uniqueRight part
  apply eq_of_find?_eq Branch.condition
  · rw [map_putBy, map_mergeBy Branch.condition_absorb, map_mergeBy Branch.condition_absorb, map_putBy,
      names, named, insertAll_insertNew]
  · apply nodup_putBy
    rw [map_mergeBy Branch.condition_absorb]
    exact nodup_insertAll _ _ uniqueLeft
  · intro name
    rw [find?_putBy, find?_mergeBy Branch.condition_absorb uniqueRight,
      find?_mergeBy Branch.condition_absorb uniquePart, find?_putBy, named]
    by_cases same : whole.condition = name
    · rw [if_pos same, if_pos same, ← same, merged]
    · rw [if_neg same, if_neg same, others name (Ne.symm same)]

theorem merge_enter (kindA : a.WellKeyed) (kind : t.WellKeyed) (condition : String) :
    (a.merge t).enter condition = (a.focus condition).merge (t.enter condition) := by
  have target : contentAt (mergeBy Branch.condition Branch.absorb a.branches t.branches) condition =
      (a.focus condition).target.merge (t.enter condition).target := contentAt_mergeBy kind condition
  have branches : putBy Branch.condition (mergeBy Branch.condition Branch.absorb a.branches t.branches)
      ⟨condition, {}⟩ = mergeBy Branch.condition Branch.absorb (a.focus condition).branches
        (t.enter condition).branches := by
    apply putBy_mergeBy ⟨condition, {}⟩ ⟨condition, {}⟩ kindA.conditions kind.conditions
      (condition_focus a condition) rfl
    · exact fun name differ => find?_focus_of_ne a differ
    · rw [find?_focus]
      cases found : a.branches.find? (·.condition == condition) with
      | none => rfl
      | some branch =>
        have named : branch.condition = condition := by simpa using List.find?_some found
        simp [named, Option.merge, Branch.absorb, Collected.merge, insertAll]
  change (⟨contentAt _ condition, putBy _ _ _, _⟩ : Collection) = _
  rw [show (a.merge t).branches = mergeBy Branch.condition Branch.absorb a.branches t.branches from rfl,
    target, branches]
  rfl

theorem merge_leave (kindA : a.WellKeyed) (t : Collection) (filled : inner.WellKeyed)
    (condition : String) :
    ((a.focus condition).merge inner).leave (a.merge t) condition =
      a.merge (inner.leave t condition) := by
  have branches : putBy Branch.condition
      (mergeBy Branch.condition Branch.absorb (a.focus condition).branches inner.branches)
      ⟨condition, (contentAt a.branches condition).merge inner.target⟩ =
      mergeBy Branch.condition Branch.absorb a.branches
        (putBy Branch.condition inner.branches ⟨condition, inner.target⟩) := by
    apply putBy_mergeBy ⟨condition, inner.target⟩
      ⟨condition, (contentAt a.branches condition).merge inner.target⟩
      (kindA.focus condition).conditions filled.conditions
      (condition_focus a condition).symm rfl
    · exact fun name differ => (find?_focus_of_ne a differ).symm
    · unfold contentAt
      cases found : a.branches.find? (·.condition == condition) with
      | none => simp [Collected.empty_merge filled.target]
      | some branch =>
        have named : branch.condition = condition := by simpa using List.find?_some found
        simp [named, Option.merge, Branch.absorb]
  change (⟨_, putBy _ _ _, _⟩ : Collection) = ⟨_, mergeBy _ _ _ _, _⟩
  exact congrArg (fun branches => (⟨a.target.merge t.target, branches,
    insertAll a.leaves inner.leaves⟩ : Collection)) branches

end Collection

namespace Compiler

variable {c : Compiler} {stack : List String} {parent : TypeDefinition} {conditional : Bool}

/-- Collecting on top of something else adds to it what is collected alone. -/
theorem Run.onTop {selections : List Selection} {t t' : Collection}
    (run : c.Run stack parent conditional selections t t') (kind : t.WellKeyed) {a : Collection}
    (kindA : a.WellKeyed) : c.Run stack parent conditional selections (a.merge t) (a.merge t') := by
  induction run generalizing a with
  | nil => exact .nil
  | leaf looked simple after ih =>
    refine .leaf looked simple ?_
    rw [Collection.merge_record a kind (wellKeyed_leaf ..)]
    exact ih (kind.record (wellKeyed_leaf ..) _) kindA
  | @composite _ _ _ _ _ _ _ _ type _ _ _ looked hasFields inside after _ ih =>
    have below : (c.finish type _).WellKeyed :=
      wellKeyed_finish (inside.wellKeyed Collection.wellKeyed_empty)
    refine .composite looked hasFields inside ?_
    rw [Collection.merge_record a kind (wellKeyed_makeField below ..)]
    exact ih (kind.record (wellKeyed_makeField below ..) _) kindA
  | @merge _ _ _ selection _ _ _ _ _ _ fragment fresh applies inside after below ih =>
    have noted := kind.note selection
    refine .merge fragment fresh applies ?_ (ih (inside.wellKeyed noted) kindA)
    rw [Collection.merge_note]
    exact below noted kindA
  | @branch _ _ _ selection _ condition _ _ _ _ fragment fresh opened inside after below ih =>
    have noted := kind.note selection
    have entered := noted.enter condition.name
    have filled := inside.wellKeyed entered
    have inner := below entered (kindA.focus condition.name)
    rw [← Collection.merge_enter kindA noted, ← Collection.merge_note] at inner
    have rest := ih (noted.leave filled condition.name) kindA
    rw [← Collection.merge_leave kindA _ filled, ← Collection.merge_note] at rest
    exact .branch fragment fresh opened inner rest
  | mention unmerged after ih =>
    refine .mention unmerged ?_
    rw [Collection.merge_addSpread]
    exact ih ⟨⟨kind.target.fields, nodup_insertNew _ _ kind.target.spreads⟩, kind.conditions,
      kind.contents⟩ kindA

/-- Whether selections can be collected does not depend on what was collected before. -/
theorem Run.exists_from {selections : List Selection} {t t' : Collection}
    (run : c.Run stack parent conditional selections t t') (s : Collection) :
    ∃ s', c.Run stack parent conditional selections s s' := by
  induction run generalizing s with
  | nil => exact ⟨s, .nil⟩
  | leaf looked simple after ih =>
    obtain ⟨s', rest⟩ := ih _
    exact ⟨s', .leaf looked simple rest⟩
  | composite looked hasFields inside after _ ih =>
    obtain ⟨s', rest⟩ := ih _
    exact ⟨s', .composite looked hasFields inside rest⟩
  | merge fragment fresh applies inside after below ih =>
    obtain ⟨middle, inner⟩ := below _
    obtain ⟨s', rest⟩ := ih _
    exact ⟨s', .merge fragment fresh applies inner rest⟩
  | branch fragment fresh opened inside after below ih =>
    obtain ⟨filled, inner⟩ := below _
    obtain ⟨s', rest⟩ := ih _
    exact ⟨s', .branch fragment fresh opened inner rest⟩
  | mention unmerged after ih =>
    obtain ⟨s', rest⟩ := ih _
    exact ⟨s', .mention unmerged rest⟩

/-- Selections that can be collected inside fragments can be outside of them, with the same result. -/
theorem Run.outside {selections : List Selection} {s s' : Collection}
    (run : c.Run stack parent conditional selections s s') {fewer : List String}
    (subset : fewer ⊆ stack) : c.Run fewer parent conditional selections s s' := by
  have deeper (names : List String) {xs ys : List String} (subset : xs ⊆ ys) :
      names ++ xs ⊆ names ++ ys :=
    List.append_subset.mpr ⟨List.subset_append_left .., List.subset_append_of_subset_right _ subset⟩
  induction run generalizing fewer with
  | nil => exact .nil
  | leaf looked simple after ih => exact .leaf looked simple (ih subset)
  | composite looked hasFields inside after below ih =>
    exact .composite looked hasFields (below subset) (ih subset)
  | merge fragment fresh applies inside after below ih =>
    have still := fun name spread member => fresh name spread (subset member)
    exact .merge fragment still applies (below (deeper _ subset)) (ih subset)
  | branch fragment fresh opened inside after below ih =>
    have still := fun name spread member => fresh name spread (subset member)
    exact .branch fragment still opened (below (deeper _ subset)) (ih subset)
  | mention unmerged after ih => exact .mention unmerged (ih subset)

theorem run_append {first second : List Selection} {s s' : Collection} :
    c.Run stack parent conditional (first ++ second) s s' ↔
      ∃ middle, c.Run stack parent conditional first s middle ∧
        c.Run stack parent conditional second middle s' := by
  simp only [← collectAll_eq_ok_iff]
  induction first generalizing s with
  | nil => simp [collectAll]
  | cons selection rest ih =>
    simp only [List.cons_append, collectAll, bind_eq_ok, ih]
    constructor
    · rintro ⟨start, collected, middle, before, after⟩
      exact ⟨middle, ⟨start, collected, before⟩, after⟩
    · rintro ⟨middle, ⟨start, collected, before⟩, after⟩
      exact ⟨start, collected, middle, before, after⟩

theorem Run.unique {selections : List Selection} {s t t' : Collection}
    (left : c.Run stack parent conditional selections s t)
    (right : c.Run stack parent conditional selections s t') : t = t' := by
  rw [← collectAll_eq_ok_iff] at left right
  exact Except.ok.inj (left.symm.trans right)

/-- Selections in a row are collected as their parts are, and the results merged. -/
theorem run_append_empty {first second : List Selection} {s : Collection} :
    c.Run stack parent conditional (first ++ second) {} s ↔
      ∃ left right, c.Run stack parent conditional first {} left ∧
        c.Run stack parent conditional second {} right ∧ s = left.merge right := by
  have inTurn {left right : Collection} (before : c.Run stack parent conditional first {} left)
      (after : c.Run stack parent conditional second {} right) :
      c.Run stack parent conditional second left (left.merge right) := by
    have framed := after.onTop Collection.wellKeyed_empty (before.wellKeyed Collection.wellKeyed_empty)
    rwa [Collection.merge_empty] at framed
  rw [run_append]
  constructor
  · rintro ⟨left, before, after⟩
    obtain ⟨right, alone⟩ := after.exists_from {}
    exact ⟨left, right, before, alone, after.unique (inTurn before alone)⟩
  · rintro ⟨left, right, before, alone, rfl⟩
    exact ⟨left, before, inTurn before alone⟩

end Compiler

end QueryTypes
