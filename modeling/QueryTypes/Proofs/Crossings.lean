import QueryTypes.Proofs.Collecting
import QueryTypes.Proofs.ShapeKeys

namespace QueryTypes

open ResponseField

def Selection.key? : Selection → Option String
  | .field head _ _ => some head.responseName
  | _ => none

structure Crossing where
  condition : TypeDefinition
  opens : Bool

def opened (trail : List Crossing) : List String :=
  (trail.filter Crossing.opens).map fun crossing => crossing.condition.name

@[simp] theorem opened_nil : opened [] = [] := rfl

theorem opened_cons (crossing : Crossing) (trail : List Crossing) :
    opened (crossing :: trail) =
      if crossing.opens then crossing.condition.name :: opened trail else opened trail := by
  cases opens : crossing.opens <;> simp [opened, opens]

/-- Where fields stay that are selected with the given branches open, the outermost first: in the
    target if there are none, and else in the branch opened last. They are lost if this branch was
    open before, since the outer one is put in its place. -/
def FiledUnder (branches : List String) : Option String → Prop
  | none => branches = []
  | some condition => ∃ outer, branches = outer ++ [condition] ∧ condition ∉ outer

theorem filedUnder_cons_none (first : String) (branches : List String) :
    ¬FiledUnder (first :: branches) none := nofun

theorem filedUnder_cons_some (first : String) (branches : List String) (condition : String) :
    FiledUnder (first :: branches) (some condition) ↔
      if condition = first then FiledUnder branches none else FiledUnder branches (some condition) := by
  constructor
  · rintro ⟨outer, split, fresh⟩
    cases outer with
    | nil =>
      obtain ⟨rfl, rfl⟩ := List.cons.inj split
      rw [if_pos rfl]
      rfl
    | cons head outer =>
      obtain ⟨rfl, rfl⟩ := List.cons.inj split
      simp only [List.mem_cons, not_or] at fresh
      rw [if_neg fresh.1]
      exact ⟨outer, rfl, fresh.2⟩
  · intro filed
    split at filed
    · rename_i same
      have empty : branches = [] := filed
      exact ⟨[], by rw [same, empty]; rfl, List.not_mem_nil⟩
    · rename_i other
      obtain ⟨outer, rfl, fresh⟩ := filed
      exact ⟨first :: outer, rfl, by simp [other, fresh]⟩

namespace Collection

def contentAt (branches : List Branch) (condition : String) : Collected :=
  ((branches.find? (·.condition == condition)).map Branch.content).getD {}

def fieldsAt (s : Collection) : Option String → List ResponseField
  | none => s.target.fields
  | some condition => (contentAt s.branches condition).fields

@[simp] theorem fieldsAt_note (s : Collection) (selection : Selection) (place : Option String) :
    (s.note selection).fieldsAt place = s.fieldsAt place := by
  unfold note
  cases selection.spreadName? <;> cases place <;> rfl

@[simp] theorem fieldsAt_addSpread (s : Collection) (name : String) (place : Option String) :
    (s.addSpread name).fieldsAt place = s.fieldsAt place := by
  cases place <;> rfl

/-- While a branch is filled it is the target, and the others stay. -/
theorem fieldsAt_enter (s : Collection) (condition other : String) :
    (s.enter condition).fieldsAt (if other = condition then none else some other) =
      s.fieldsAt (some other) := by
  by_cases same : other = condition
  · subst same
    rw [if_pos rfl]
    rfl
  · rw [if_neg same]
    simp only [fieldsAt, contentAt, enter]
    rw [find?_putBy, if_neg (Ne.symm same)]

theorem fieldsAt_leave_some (inner s : Collection) (condition other : String) :
    (inner.leave s condition).fieldsAt (some other) =
      inner.fieldsAt (if other = condition then none else some other) := by
  simp only [fieldsAt, contentAt, leave]
  rw [find?_putBy]
  by_cases same : other = condition
  · simp [same]
  · simp [same, Ne.symm same]

def keysAt (s : Collection) : Option String → List String
  | none => keys s.target.fields
  | some condition =>
    keys (((s.branches.find? (·.condition == condition)).map Branch.content).getD {}).fields

theorem keysAt_eq (s : Collection) (place : Option String) :
    s.keysAt place = keys (s.fieldsAt place) := by
  cases place <;> rfl

theorem mem_keysAt_some {s : Collection} (unique : (s.branches.map Branch.condition).Nodup)
    {condition key : String} :
    key ∈ s.keysAt (some condition) ↔
      ∃ branch ∈ s.branches, branch.condition = condition ∧ key ∈ keys branch.content.fields := by
  simp only [keysAt]
  constructor
  · intro member
    cases found : s.branches.find? (·.condition == condition) with
    | none => simp [found, keys] at member
    | some branch =>
      refine ⟨branch, List.mem_of_find?_eq_some found, by simpa using List.find?_some found, ?_⟩
      simpa [found] using member
  · rintro ⟨branch, listed, rfl, member⟩
    rw [find?_key_of_mem Branch.condition unique listed]
    exact member

@[simp] theorem keysAt_note (s : Collection) (selection : Selection) (place : Option String) :
    (s.note selection).keysAt place = s.keysAt place := by
  rw [keysAt_eq, fieldsAt_note, keysAt_eq]

@[simp] theorem keysAt_addSpread (s : Collection) (name : String) (place : Option String) :
    (s.addSpread name).keysAt place = s.keysAt place := by
  rw [keysAt_eq, fieldsAt_addSpread, keysAt_eq]

@[simp] theorem branches_note (s : Collection) (selection : Selection) :
    (s.note selection).branches = s.branches := by
  unfold note
  cases selection.spreadName? <;> rfl

theorem mem_keysAt_record (s : Collection) (field : ResponseField) (leaves : List String)
    (place : Option String) (key : String) :
    key ∈ (s.record field leaves).keysAt place ↔
      key ∈ s.keysAt place ∨ place = none ∧ key = field.responseName := by
  cases place with
  | none =>
    change key ∈ keys (field.mergeInto s.target.fields) ↔ _
    rw [keys_mergeInto]
    simp [keysAt]
  | some condition =>
    simp only [reduceCtorEq, false_and, or_false]
    rfl

theorem keysAt_enter_none (s : Collection) (condition : String) :
    (s.enter condition).keysAt none = s.keysAt (some condition) := rfl

theorem keysAt_enter_some (s : Collection) {condition other : String} (differ : other ≠ condition) :
    (s.enter condition).keysAt (some other) = s.keysAt (some other) := by
  have kept := s.fieldsAt_enter condition other
  rw [if_neg differ] at kept
  rw [keysAt_eq, kept, keysAt_eq]

theorem keysAt_leave_none (inner s : Collection) (condition : String) :
    (inner.leave s condition).keysAt none = s.keysAt none := rfl

theorem keysAt_leave_some (inner s : Collection) (condition other : String) :
    (inner.leave s condition).keysAt (some other) =
      if other = condition then inner.keysAt none else inner.keysAt (some other) := by
  rw [keysAt_eq, fieldsAt_leave_some, keysAt_eq, keysAt_eq]
  split <;> rfl

end Collection

namespace Compiler

def insideOf (c : Compiler) (parent condition : TypeDefinition) : TypeDefinition :=
  if c.opens parent condition then condition else parent

theorem FragmentOn.unique {c : Compiler} {parent : TypeDefinition} {selection : Selection}
    {condition other : TypeDefinition} {inner selections : List Selection}
    (left : c.FragmentOn parent selection condition inner)
    (right : c.FragmentOn parent selection other selections) :
    condition = other ∧ inner = selections := by
  cases left with
  | inline resolved =>
    cases right with
    | inline also =>
      rw [resolved] at also
      exact ⟨Except.ok.inj also, rfl⟩
  | spread _ found resolved =>
    cases right with
    | spread _ foundAlso also =>
      cases found.symm.trans foundAlso
      rw [resolved] at also
      exact ⟨Except.ok.inj also, rfl⟩

section Known

variable {c : Compiler} {parent : TypeDefinition}

theorem composite_eq_ok {name : String} {type : TypeDefinition} :
    c.composite name = .ok type ↔ c.schema.type? name = some type ∧ type.isComposite := by
  unfold Compiler.composite Compiler.type
  cases found : c.schema.type? name with
  | none => simp [Bind.bind, Except.bind]
  | some known =>
    cases hasFields : known.isComposite with
    | false =>
      simp only [Bind.bind, Except.bind, hasFields, Bool.false_eq_true, ↓reduceIte,
        Option.some.injEq]
      constructor
      · exact nofun
      · rintro ⟨rfl, composite⟩
        rw [hasFields] at composite
        cases composite
    | true =>
      simp only [Bind.bind, Except.bind, Pure.pure, Except.pure, hasFields, ↓reduceIte,
        Except.ok.injEq, Option.some.injEq]
      constructor
      · rintro rfl
        exact ⟨rfl, hasFields⟩
      · exact And.left

theorem FragmentOn.known {selection : Selection} {condition : TypeDefinition}
    {inner : List Selection} (fragment : c.FragmentOn parent selection condition inner)
    (known : c.schema.type? parent.name = some parent) :
    c.schema.type? condition.name = some condition := by
  have named {name : String} (resolved : c.composite name = .ok condition) :
      c.schema.type? condition.name = some condition := by
    have found := (composite_eq_ok.mp resolved).1
    rwa [Schema.name_of_type? found]
  cases fragment with
  | inline resolved =>
    unfold inlineType at resolved
    split at resolved
    · exact named resolved
    · cases resolved
      exact known
  | spread _ _ resolved => exact named resolved

theorem FragmentOn.knownInside {selection : Selection} {condition : TypeDefinition}
    {inner : List Selection} (fragment : c.FragmentOn parent selection condition inner)
    (known : c.schema.type? parent.name = some parent) :
    c.schema.type? (c.insideOf parent condition).name = some (c.insideOf parent condition) := by
  unfold insideOf
  split
  · exact fragment.known known
  · exact known

end Known

inductive Reaches (c : Compiler) :
    TypeDefinition → List Selection → List Crossing → List Selection → Prop
  | here {parent selections} : Reaches c parent selections [] selections
  | through {parent selections selection condition inner trail place}
    (selected : selection ∈ selections) (fragment : c.FragmentOn parent selection condition inner)
    (onward : Reaches c (c.insideOf parent condition) inner trail place) :
    Reaches c parent selections (⟨condition, c.opens parent condition⟩ :: trail) place

/-- Selections on a type have a field of this key which stays in the target or in the branch of a
    condition. -/
def Selects (c : Compiler) (parent : TypeDefinition) (selections : List Selection)
    (place : Option String) (key : String) : Prop :=
  ∃ trail inner, c.Reaches parent selections trail inner ∧
    key ∈ inner.filterMap Selection.key? ∧ FiledUnder (opened trail) place

variable {c : Compiler} {parent : TypeDefinition}

theorem not_selects_nil (place : Option String) (key : String) : ¬c.Selects parent [] place key := by
  rintro ⟨trail, inner, reached, member, _⟩
  cases reached with
  | here => cases member
  | through selected _ _ => cases selected

theorem selects_cons (selection : Selection) (rest : List Selection) (place : Option String)
    (key : String) :
    c.Selects parent (selection :: rest) place key ↔
      c.Selects parent [selection] place key ∨ c.Selects parent rest place key := by
  constructor
  · rintro ⟨trail, inner, reached, member, filed⟩
    cases reached with
    | here =>
      rw [← List.singleton_append, List.filterMap_append, List.mem_append] at member
      rcases member with member | member
      · exact Or.inl ⟨[], _, .here, member, filed⟩
      · exact Or.inr ⟨[], _, .here, member, filed⟩
    | through selected fragment onward =>
      rcases List.mem_cons.mp selected with rfl | selected
      · exact Or.inl ⟨_, inner, .through List.mem_cons_self fragment onward, member, filed⟩
      · exact Or.inr ⟨_, inner, .through selected fragment onward, member, filed⟩
  · -- a way into a part of the selections is one into all of them
    have widen {part : List Selection} (subset : part ⊆ selection :: rest) :
        c.Selects parent part place key → c.Selects parent (selection :: rest) place key := by
      rintro ⟨trail, inner, reached, member, filed⟩
      cases reached with
      | here =>
        obtain ⟨field, inPart, named⟩ := List.mem_filterMap.mp member
        exact ⟨[], _, .here, List.mem_filterMap.mpr ⟨field, subset inPart, named⟩, filed⟩
      | through selected fragment onward =>
        exact ⟨_, inner, .through (subset selected) fragment onward, member, filed⟩
    rintro (selects | selects)
    · exact widen (by simp) selects
    · exact widen (by simp) selects

theorem selects_field (head : FieldHead) (span : Span) (inner : List Selection)
    (place : Option String) (key : String) :
    c.Selects parent [.field head span inner] place key ↔
      place = none ∧ key = head.responseName := by
  constructor
  · rintro ⟨trail, within, reached, member, filed⟩
    cases reached with
    | here =>
      refine ⟨?_, by simpa [Selection.key?] using member⟩
      cases place with
      | none => rfl
      | some condition =>
        obtain ⟨outer, split, _⟩ := filed
        exact absurd split (by simp)
    | through selected fragment onward =>
      rw [List.mem_singleton] at selected
      subst selected
      cases fragment
  · rintro ⟨rfl, rfl⟩
    exact ⟨[], _, .here, by simp [Selection.key?], rfl⟩

/-- What a fragment selects goes where its selections put it: all as it is if the fragment opens no
    branch, and else the target of its selections becomes the branch. -/
theorem selects_fragmentOn {selection : Selection} {condition : TypeDefinition}
    {inner : List Selection} (fragment : c.FragmentOn parent selection condition inner)
    (place : Option String) (key : String) :
    c.Selects parent [selection] place key ↔
      ∃ trail within, c.Reaches (c.insideOf parent condition) inner trail within ∧
        key ∈ within.filterMap Selection.key? ∧
        FiledUnder (opened (⟨condition, c.opens parent condition⟩ :: trail)) place := by
  constructor
  · rintro ⟨trail, within, reached, member, filed⟩
    cases reached with
    | here =>
      cases fragment <;> simp [Selection.key?] at member
    | through selected other onward =>
      rw [List.mem_singleton] at selected
      subst selected
      obtain ⟨rfl, rfl⟩ := fragment.unique other
      exact ⟨_, within, onward, member, filed⟩
  · rintro ⟨trail, within, onward, member, filed⟩
    exact ⟨_, within, .through List.mem_cons_self fragment onward, member, filed⟩

theorem selects_merged {selection : Selection} {condition : TypeDefinition}
    {inner : List Selection} (fragment : c.FragmentOn parent selection condition inner)
    (applies : c.opens parent condition = false) (place : Option String) (key : String) :
    c.Selects parent [selection] place key ↔ c.Selects parent inner place key := by
  rw [selects_fragmentOn fragment]
  simp [Selects, insideOf, applies, opened_cons]

theorem selects_branch {selection : Selection} {condition : TypeDefinition}
    {inner : List Selection} (fragment : c.FragmentOn parent selection condition inner)
    (opens : c.opens parent condition = true) (place : Option String) (key : String) :
    c.Selects parent [selection] place key ↔
      ∃ other, place = some other ∧
        c.Selects condition inner (if other = condition.name then none else some other) key := by
  rw [selects_fragmentOn fragment]
  simp only [Selects, insideOf, opens, opened_cons, ↓reduceIte]
  cases place with
  | none => simp [filedUnder_cons_none]
  | some other =>
    simp only [filedUnder_cons_some, Option.some.injEq, exists_eq_left']
    split <;> rfl

structure Adds (selected : Option String → String → Prop) (s s' : Collection) : Prop where
  keys : ∀ place key, key ∈ s'.keysAt place ↔ key ∈ s.keysAt place ∨ selected place key
  unique : (s.branches.map Branch.condition).Nodup → (s'.branches.map Branch.condition).Nodup

theorem Adds.branch {selected : Option String → String → Prop} {s filled : Collection}
    {condition : String} (inside : Adds selected (s.enter condition) filled) :
    Adds (fun place key => ∃ other, place = some other ∧
      selected (if other = condition then none else some other) key) s
      (filled.leave s condition) := by
  refine ⟨?_, ?_⟩
  · intro place key
    cases place with
    | none => simp [Collection.keysAt_leave_none]
    | some other =>
      rw [Collection.keysAt_leave_some]
      simp only [Option.some.injEq, exists_eq_left']
      by_cases same : other = condition
      · rw [if_pos same, if_pos same, inside.keys, Collection.keysAt_enter_none, same]
      · rw [if_neg same, if_neg same, inside.keys, Collection.keysAt_enter_some s same]
  · intro unique
    have opened : ((s.enter condition).branches.map Branch.condition).Nodup := by
      simp only [Collection.enter, map_putBy]
      exact nodup_insertNew _ _ unique
    simp only [Collection.leave, map_putBy]
    exact nodup_insertNew _ _ (inside.unique opened)

theorem not_selects_spread (unmerged : c.mergeSpreads = false) (spread : FragmentSpread)
    (place : Option String) (key : String) : ¬c.Selects parent [.spread spread] place key := by
  rintro ⟨trail, inner, reached, member, _⟩
  cases reached with
  | here => simp [Selection.key?] at member
  | through selected fragment _ =>
    rw [List.mem_singleton.mp selected] at fragment
    cases fragment with
    | spread merged =>
      rw [unmerged] at merged
      cases merged

theorem Run.adds {stack : List String} {conditional : Bool} {selections : List Selection}
    {s s' : Collection} (run : c.Run stack parent conditional selections s s') :
    Adds (c.Selects parent selections) s s' := by
  induction run with
  | nil => exact ⟨fun place key => by simp [not_selects_nil], id⟩
  | leaf looked simple after ih =>
    refine ⟨fun place key => ?_, ih.unique⟩
    rw [ih.keys, selects_cons, selects_field, Collection.mem_keysAt_record, or_assoc]
    rfl
  | composite looked hasFields inside after _ ih =>
    refine ⟨fun place key => ?_, ih.unique⟩
    rw [ih.keys, selects_cons, selects_field, Collection.mem_keysAt_record, or_assoc]
    rfl
  | merge fragment fresh applies inside after below ih =>
    refine ⟨fun place key => ?_, fun unique => ih.unique (below.unique (by simpa using unique))⟩
    rw [ih.keys, below.keys, selects_cons, selects_merged fragment applies, Collection.keysAt_note,
      or_assoc]
  | branch fragment fresh opens inside after below ih =>
    -- the target of the inner run is what stays under the condition
    have filled := below.branch
    refine ⟨fun place key => ?_, fun unique => ih.unique (filled.unique (by simpa using unique))⟩
    rw [ih.keys, filled.keys, selects_cons, selects_branch fragment opens, Collection.keysAt_note,
      or_assoc]
  | mention unmerged after ih =>
    refine ⟨fun place key => ?_, ih.unique⟩
    rw [ih.keys, selects_cons, or_iff_right (not_selects_spread unmerged _ place key),
      Collection.keysAt_addSpread]

theorem Run.mem_keysAt_iff {stack : List String} {conditional : Bool} {selections : List Selection}
    {s : Collection} (run : c.Run stack parent conditional selections {} s) (place : Option String)
    (key : String) : key ∈ s.keysAt place ↔ c.Selects parent selections place key := by
  have start : key ∉ ({} : Collection).keysAt place := by
    cases place <;> exact List.not_mem_nil
  rw [run.adds.keys]
  exact or_iff_right start

theorem shape_eq_ok_iff {stack : List String} {selections : List Selection} {shape : Shape} :
    c.shape stack parent selections = .ok shape ↔
      ∃ s, c.Run stack parent false selections {} s ∧ shape = c.finish parent s := by
  constructor
  · intro compiled
    obtain ⟨s, collected, finished⟩ := bind_eq_ok.mp compiled
    exact ⟨s, collectAll_eq_ok_iff.mp collected, (Except.ok.inj finished).symm⟩
  · rintro ⟨s, run, rfl⟩
    exact bind_eq_ok.mpr ⟨s, collectAll_eq_ok_iff.mpr run, rfl⟩

theorem shape_of_run {stack : List String} {selections : List Selection} {s : Collection}
    (run : c.Run stack parent false selections {} s) :
    c.shape stack parent selections = .ok (c.finish parent s) := shape_eq_ok_iff.mpr ⟨s, run, rfl⟩

/-- Selections have a field of this key that stays in the target, or in a branch that admits the
    object type. -/
def KeepsFor (c : Compiler) (parent : TypeDefinition) (selections : List Selection) (type : String)
    (key : String) : Prop :=
  ∃ place, c.Selects parent selections place key ∧
    ∀ condition ∈ place, type ∈ c.schema.possibleTypes condition

/-- The keys that a compiled selection has for an object type. -/
theorem mem_keys_fieldsOf_iff (distinct : c.schema.Distinct) (members : c.schema.UnionsOfObjects)
    {stack : List String} {selections : List Selection} {shape : Shape}
    (compiled : c.shape stack parent selections = .ok shape) {type : String}
    (possible : type ∈ c.schema.possibleTypes parent.name) (key : String) :
    key ∈ keys (shape.fieldsOf type) ↔ c.KeepsFor parent selections type key := by
  obtain ⟨s, run, rfl⟩ := shape_eq_ok_iff.mp compiled
  have unique : (s.branches.map Branch.condition).Nodup := run.adds.unique List.nodup_nil
  have selected (place : Option String) := run.mem_keysAt_iff place key
  rw [mem_keys_fieldsOf_finish distinct members unique possible]
  constructor
  · rintro (inTarget | ⟨branch, member, admitted, inBranch⟩)
    · exact ⟨none, (selected none).mp inTarget, by simp⟩
    · refine ⟨some branch.condition, (selected _).mp ?_, by simpa using admitted⟩
      exact (Collection.mem_keysAt_some unique).mpr ⟨branch, member, rfl, inBranch⟩
  · rintro ⟨place, selects, admitted⟩
    cases place with
    | none => exact Or.inl ((selected none).mpr selects)
    | some condition =>
      obtain ⟨branch, member, rfl, inBranch⟩ :=
        (Collection.mem_keysAt_some unique).mp ((selected _).mpr selects)
      exact Or.inr ⟨branch, member, admitted _ rfl, inBranch⟩

end Compiler

end QueryTypes
