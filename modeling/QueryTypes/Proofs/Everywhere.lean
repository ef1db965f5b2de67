import QueryTypes.Proofs.CompiledRuns

namespace QueryTypes

open ResponseField

namespace ResponseField

def Everywhere (holds : ResponseField → Prop) (field : ResponseField) : Prop :=
  ∀ inner, Within inner [field] → holds inner

variable {holds : ResponseField → Prop} {field inner : ResponseField}

theorem Within.mono {fields others : List ResponseField} (within : Within inner fields)
    (subset : fields ⊆ others) : Within inner others := by
  cases within with
  | here member => exact .here (subset member)
  | inFields member deeper => exact .inFields (subset member) deeper
  | inCase member listed deeper => exact .inCase (subset member) listed deeper

theorem Within.exists_single {fields : List ResponseField} (within : Within inner fields) :
    ∃ field ∈ fields, Within inner [field] := by
  cases within with
  | here member => exact ⟨inner, member, .here (List.mem_singleton_self inner)⟩
  | inFields member deeper => exact ⟨_, member, .inFields (List.mem_singleton_self _) deeper⟩
  | inCase member listed deeper => exact ⟨_, member, .inCase (List.mem_singleton_self _) listed deeper⟩

theorem Everywhere.of_within {fields : List ResponseField} (each : ∀ field ∈ fields, field.Everywhere holds)
    (within : Within inner fields) : holds inner := by
  obtain ⟨field, member, below⟩ := within.exists_single
  exact each field member inner below

theorem everywhere_iff : field.Everywhere holds ↔
    holds field ∧ (∀ child ∈ field.fields, child.Everywhere holds) ∧
      ∀ typeCase ∈ field.cases, ∀ child ∈ typeCase.fields, child.Everywhere holds := by
  constructor
  · intro all
    refine ⟨all field (.here (List.mem_singleton_self field)), ?_, ?_⟩
    · intro child member inner within
      have inFields := within.mono (List.cons_subset.mpr ⟨member, List.nil_subset _⟩)
      exact all inner (.inFields (List.mem_singleton_self field) inFields)
    · intro typeCase listed child member inner within
      have inCase := within.mono (List.cons_subset.mpr ⟨member, List.nil_subset _⟩)
      exact all inner (.inCase (List.mem_singleton_self field) listed inCase)
  · rintro ⟨own, ofFields, ofCases⟩ inner within
    cases within with
    | here member =>
      rw [List.mem_singleton.mp member]
      exact own
    | inFields member deeper =>
      rw [List.mem_singleton.mp member] at deeper
      exact Everywhere.of_within ofFields deeper
    | inCase member listed deeper =>
      rw [List.mem_singleton.mp member] at listed
      exact Everywhere.of_within (ofCases _ listed) deeper

theorem everywhere_of_leaf (own : holds field) (noFields : field.fields = [])
    (noCases : field.cases = []) : field.Everywhere holds := by
  rw [everywhere_iff, noFields, noCases]
  exact ⟨own, nofun, nofun⟩

theorem everywhere_of_single {child : ResponseField} (own : holds field)
    (single : field.fields = [child]) (noCases : field.cases = []) (below : child.Everywhere holds) :
    field.Everywhere holds := by
  rw [everywhere_iff, single, noCases]
  exact ⟨own, by simpa using below, nofun⟩

/-- What fields keep when they are merged, they keep at every depth. -/
theorem absorbing_everywhere (absorbing : Absorbing holds) : Absorbing (Everywhere holds) := by
  intro x y
  induction y using induction_below generalizing x with
  | step y below belowCases =>
    intro same left right
    obtain ⟨ownLeft, fieldsLeft, casesLeft⟩ := everywhere_iff.mp left
    obtain ⟨ownRight, fieldsRight, casesRight⟩ := everywhere_iff.mp right
    refine everywhere_iff.mpr ⟨absorbing x y same ownLeft ownRight, ?_, ?_⟩
    · change ∀ child ∈ mergeAll x.fields y.fields, _
      rw [mergeAll_eq]
      refine forall_mem_mergeBy fieldsLeft fieldsRight ?_
      intro child member existing named held
      exact below child member existing named held (fieldsRight child member)
    · change ∀ typeCase ∈ mergeCases x.cases y.cases, _
      rw [mergeCases_eq]
      refine forall_mem_mergeBy casesLeft casesRight ?_
      intro typeCase listed existing _ held
      change ∀ child ∈ mergeAll existing.fields typeCase.fields, _
      rw [mergeAll_eq]
      refine forall_mem_mergeBy held (casesRight typeCase listed) ?_
      intro child member other named kept
      exact belowCases typeCase listed child member other named kept (casesRight typeCase listed child member)

end ResponseField

namespace Collection

def Everywhere (holds : ResponseField → Prop) (s : Collection) : Prop :=
  ∀ place, ∀ field ∈ s.fieldsAt place, field.Everywhere holds

variable {holds : ResponseField → Prop} {s inner : Collection}

theorem everywhere_empty : ({} : Collection).Everywhere holds := by
  intro place field member
  cases place <;> cases member

theorem Everywhere.record (absorbing : Absorbing holds) (all : s.Everywhere holds)
    {field : ResponseField} (made : field.Everywhere holds) (leaves : List String) :
    (s.record field leaves).Everywhere holds :=
  Compiler.forall_fieldsAt_record (fun _ => absorbing_everywhere absorbing) all made leaves

theorem fieldsAt_enter_self (s : Collection) (condition : String) :
    (s.enter condition).fieldsAt (some condition) = [] := by
  simp only [fieldsAt, contentAt, Collection.enter, find?_putBy, if_true]
  rfl

theorem Everywhere.enter (all : s.Everywhere holds) (condition : String) :
    (s.enter condition).Everywhere holds := by
  intro place field member
  cases place with
  | none => exact all (some condition) field member
  | some other =>
    by_cases same : other = condition
    · rw [same, fieldsAt_enter_self] at member
      cases member
    · have kept := s.fieldsAt_enter condition other
      rw [if_neg same] at kept
      exact all (some other) field (kept ▸ member)

theorem Everywhere.leave (all : s.Everywhere holds) (filled : inner.Everywhere holds)
    (condition : String) : (inner.leave s condition).Everywhere holds := by
  intro place field member
  cases place with
  | none => exact all none field member
  | some other =>
    rw [fieldsAt_leave_some] at member
    exact filled _ field member

theorem Everywhere.note (all : s.Everywhere holds) (selection : Selection) :
    (s.note selection).Everywhere holds := by
  intro place field member
  exact all place field (by simpa using member)

@[simp] theorem leaves_note (s : Collection) (selection : Selection) :
    (s.note selection).leaves = s.leaves := by
  unfold Collection.note
  cases selection.spreadName? <;> rfl

end Collection

namespace Compiler

variable {c : Compiler} {root parent : TypeDefinition} {start selections : List Selection}
  {stack : List String} {conditional : Bool} {s s' : Collection}

/-- A field is selected in selections on a type, at any depth and through fragments. -/
inductive Selected (c : Compiler) (root : TypeDefinition) (start : List Selection) :
    TypeDefinition → FieldHead → List Selection → Prop
  | top {branches above head inner} (found : c.Finds root start branches above head inner) :
    Selected c root start above head inner
  | deeper {above head inner definition type branches other otherHead otherInner}
    (selected : Selected c root start above head inner)
    (looked : c.fieldType above head.name = .ok (definition, type))
    (hasFields : type.isComposite = true)
    (found : c.Finds type inner branches other otherHead otherInner) :
    Selected c root start other otherHead otherInner

theorem Run.leaves_subset (run : c.Run stack parent conditional selections s s') :
    s.leaves ⊆ s'.leaves := by
  induction run with
  | nil => exact fun _ => id
  | leaf looked simple after ih => exact fun name member => ih ((mem_insertAll _ _ _).mpr (.inl member))
  | composite looked hasFields inside after below ih =>
    exact fun name member => ih ((mem_insertAll _ _ _).mpr (.inl member))
  | merge fragment fresh applies inside after below ih =>
    rw [Collection.leaves_note] at below
    exact fun name member => ih (below member)
  | branch fragment fresh opened inside after below ih =>
    change (Collection.note _ _).leaves ⊆ _ at below
    rw [Collection.leaves_note] at below
    exact fun name member => ih (below member)
  | mention unmerged after ih => exact ih

/-- The fields of the cases have what all collected fields have. -/
theorem everywhere_cases_finish {holds : ResponseField → Prop} (absorbing : Absorbing holds)
    (kind : s.WellKeyed) (all : s.Everywhere holds) (parent : TypeDefinition) :
    ∀ typeCase ∈ (c.finish parent s).cases, ∀ child ∈ typeCase.fields, child.Everywhere holds := by
  intro typeCase listed
  obtain ⟨_, _, _, _, induct⟩ := ResolvedBranch.exists_first listed
  apply induct _ (absorbing_everywhere absorbing)
  · exact all none
  · intro resolved inResolved _ field member
    obtain ⟨branch, inBranches, rfl⟩ := List.mem_map.mp inResolved
    apply all (some branch.condition)
    rw [kind.fieldsAt_branch inBranches]
    exact member

section Everywhere

variable {holds : ResponseField → Prop} (absorbing : Absorbing holds) {leaves : List String}
  (ofLeaf : ∀ above head inner definition type conditional, c.Selected root start above head inner →
    c.fieldType above head.name = .ok (definition, type) → type.isComposite = false →
    type.name ∈ leaves → holds (makeField head definition conditional ⟨[], [], [], [type.name]⟩))
  (ofComposite : ∀ above head inner definition type conditional stack below,
    c.Selected root start above head inner → c.fieldType above head.name = .ok (definition, type) →
    type.isComposite = true → c.Run stack type false inner {} below →
    holds (makeField head definition conditional (c.finish type below)))

include absorbing

theorem CompilesFragment.everywhere {source : Fragment} {type : TypeDefinition} {fragment : CompiledFragment}
    (compiles : c.CompilesFragment source type s fragment) (own : holds fragment.toField) (all : s.Everywhere holds) :
    fragment.toField.Everywhere holds := by
  have kind := compiles.run.wellKeyed Collection.wellKeyed_empty
  refine everywhere_iff.mpr ⟨own, ?_, ?_⟩
  · change ∀ child ∈ fragment.fields, _
    rw [compiles.fields]
    exact all none
  · change ∀ typeCase ∈ fragment.cases, _
    rw [compiles.cases]
    exact everywhere_cases_finish absorbing kind all type

include ofLeaf ofComposite

theorem Run.everywhere_onward (run : c.Run stack parent conditional selections s s')
    (each : ∀ branches above head inner, c.Finds parent selections branches above head inner →
      c.Selected root start above head inner)
    (kept : s'.leaves ⊆ leaves) (all : s.Everywhere holds) : s'.Everywhere holds := by
  induction run with
  | nil => exact all
  | @leaf _ _ within head _ inner _ definition type s _ looked simple after ih =>
    have known : type.name ∈ leaves := by
      apply kept
      apply after.leaves_subset
      exact (mem_insertAll _ _ _).mpr (.inr (List.mem_singleton_self type.name))
    have selected := each [] _ head inner (.here List.mem_cons_self)
    have made := ofLeaf _ head inner definition type (within || isConditional head.directives) selected
      looked simple known
    apply ih (fun branches above head inner found => each _ _ _ _ (found.widen (List.subset_cons_self _ _)))
      kept
    exact all.record absorbing (everywhere_iff.mpr ⟨made, nofun, nofun⟩) _
  | @composite stack _ within head _ inner _ definition type below s _ looked hasFields inside after ihBelow ih =>
    have selected := each [] _ head inner (.here List.mem_cons_self)
    have keptBelow : below.leaves ⊆ leaves := by
      intro name member
      apply kept
      apply after.leaves_subset
      exact (mem_insertAll _ _ _).mpr (.inr member)
    have allBelow := ihBelow (fun branches above head inner found => .deeper selected looked hasFields found)
      keptBelow Collection.everywhere_empty
    have made := ofComposite _ head inner definition type (within || isConditional head.directives) stack
      below selected looked hasFields inside
    have kind : below.WellKeyed := inside.wellKeyed Collection.wellKeyed_empty
    have cases := everywhere_cases_finish (c := c) absorbing kind allBelow type
    apply ih (fun branches above head inner found => each _ _ _ _ (found.widen (List.subset_cons_self _ _)))
      kept
    exact all.record absorbing (everywhere_iff.mpr ⟨made, allBelow none, cases⟩) _
  | merge fragment fresh applies inside after below ih =>
    apply ih (fun branches above head inner found => each _ _ _ _ (found.widen (List.subset_cons_self _ _)))
      kept
    apply below
    · intro branches above head inner found
      exact each _ _ _ _ (.merged List.mem_cons_self fragment applies found)
    · exact fun name member => kept (after.leaves_subset member)
    · exact all.note _
  | branch fragment fresh opened inside after below ih =>
    apply ih (fun branches above head inner found => each _ _ _ _ (found.widen (List.subset_cons_self _ _)))
      kept
    apply (all.note _).leave
    apply below
    · intro branches above head inner found
      exact each _ _ _ _ (.branched List.mem_cons_self fragment opened found)
    · exact fun name member => kept (after.leaves_subset member)
    · exact (all.note _).enter _
  | mention unmerged after ih =>
    apply ih (fun branches above head inner found => each _ _ _ _ (found.widen (List.subset_cons_self _ _)))
      kept
    intro place field member
    exact all place field (by simpa using member)

/-- What holds of each field that is selected, as it is compiled, holds at every depth of what is
    collected. -/
theorem Run.everywhere (run : c.Run stack root conditional start {} s) (kept : s.leaves ⊆ leaves) :
    s.Everywhere holds :=
  run.everywhere_onward absorbing ofLeaf ofComposite (fun _ _ _ _ => .top) kept Collection.everywhere_empty

end Everywhere

end Compiler

/-- A field at any depth of a compiled document. A fragment counts as a field of its type. -/
def Compiled.Has (compiled : Compiled) (field : ResponseField) : Prop :=
  (∃ operation ∈ compiled.operations, Within field operation.fields) ∨
    ∃ fragment ∈ compiled.fragments, Within field [fragment.toField]

theorem ResponseField.WellKeyed.of_within {field : ResponseField} {fields : List ResponseField}
    (within : Within field fields) (each : ∀ field ∈ fields, field.WellKeyed) : field.WellKeyed := by
  apply within.holds _ _ each
  · intro field kind
    exact (wellKeyed_iff.mp kind).1.each
  · intro field kind typeCase member
    exact ((wellKeyed_iff.mp kind).2.2.each typeCase member).fields.each

namespace Compiled

variable {schema : Schema} {options : Options} {document : Document} {compiled : Compiled}

theorem wellKeyed_operation (done : document.compile schema options = .ok compiled)
    {operation : CompiledOperation} (member : operation ∈ compiled.operations) :
    FieldsWellKeyed operation.fields := by
  obtain ⟨leaves, _, _, ofOperations, _⟩ := document.exists_leaves done
  obtain ⟨source, _, root, s, compiles, _⟩ := ofOperations operation member
  have kind : s.WellKeyed := compiles.run.wellKeyed Collection.wellKeyed_empty
  rw [compiles.fields]
  exact kind.target.fields

theorem wellKeyed_fragment (done : document.compile schema options = .ok compiled)
    {fragment : CompiledFragment} (member : fragment ∈ compiled.fragments) :
    fragment.toField.WellKeyed := by
  obtain ⟨leaves, _, _, _, ofFragments⟩ := document.exists_leaves done
  obtain ⟨source, _, type, s, compiles, _⟩ := ofFragments fragment member
  have kind : ((document.compiler schema options.mergeSpreads).finish type s).WellKeyed :=
    Compiler.wellKeyed_finish (compiles.run.wellKeyed Collection.wellKeyed_empty)
  rw [wellKeyed_iff]
  change FieldsWellKeyed fragment.fields ∧ fragment.spreads.Nodup ∧ CasesWellKeyed fragment.cases
  rw [compiles.fields, compiles.spreads, compiles.cases]
  exact ⟨kind.fields, kind.spreads, kind.cases⟩

/-- Response names and conditions are unique at every depth of a compiled document. -/
theorem Has.wellKeyed (done : document.compile schema options = .ok compiled)
    {field : ResponseField} (has : compiled.Has field) : field.WellKeyed := by
  rcases has with ⟨operation, member, within⟩ | ⟨fragment, member, within⟩
  · exact WellKeyed.of_within within (wellKeyed_operation done member).each
  · exact WellKeyed.of_within within (by simpa using wellKeyed_fragment done member)

end Compiled

end QueryTypes
