import QueryTypes.Proofs.CompiledRuns

namespace QueryTypes

open ResponseField

/-- Two selections single out different object types, and for these each has the keys that the other one
    selects for every type. -/
structure Shape.Beside (left right : Shape) : Prop where
  conditions : ∀ first ∈ left.cases, ∀ second ∈ right.cases, first.condition ≠ second.condition
  types : ∀ first ∈ left.cases, ∀ second ∈ right.cases,
    ∀ type ∈ first.possibleTypes, type ∉ second.possibleTypes
  keysLeft : ∀ first ∈ left.cases, keys right.fields ⊆ keys first.fields
  keysRight : ∀ second ∈ right.cases, keys left.fields ⊆ keys second.fields

namespace Compiler

/-- Two selections are compiled to the same shape, or both to one without cases. -/
def CasesAgree (c : Compiler) (parent : TypeDefinition) (selections : List Selection)
    (other : TypeDefinition) (others : List Selection) : Prop :=
  ∀ left right, c.shape [] parent selections = .ok left → c.shape [] other others = .ok right →
    left = right ∨ left.cases = [] ∧ right.cases = []

def Compatible (c : Compiler) (parent : TypeDefinition) (selections : List Selection)
    (other : TypeDefinition) (others : List Selection) : Prop :=
  ∀ left right, c.shape [] parent selections = .ok left → c.shape [] other others = .ok right →
    left = right ∨ left.Beside right

theorem CasesAgree.compatible {c : Compiler} {parent other : TypeDefinition}
    {selections others : List Selection} (agree : c.CasesAgree parent selections other others) :
    c.Compatible parent selections other others := by
  intro left right one two
  rcases agree left right one two with same | ⟨noLeft, noRight⟩
  · exact .inl same
  · exact .inr (by constructor <;> simp [noLeft, noRight])

variable {c : Compiler} {sources : TypeDefinition → List Selection → Prop}
  {fields others : List ResponseField} {cases more : List (TypeCase ResponseField)}

structure Drawn (c : Compiler) (sources : TypeDefinition → List Selection → Prop)
    (fields : List ResponseField) (cases : List (TypeCase ResponseField)) : Prop where
  keyed : ∀ key ∈ keys fields, ∃ parent selections shape, sources parent selections ∧
    c.shape [] parent selections = .ok shape ∧ key ∈ keys shape.fields
  listed : ∀ typeCase ∈ cases, ∃ parent selections shape, sources parent selections ∧
    c.shape [] parent selections = .ok shape ∧ typeCase ∈ shape.cases
  conditions : (cases.map TypeCase.condition).Nodup

section Compatible

variable (compatible : ∀ parent selections other others, sources parent selections →
  sources other others → c.Compatible parent selections other others)

include compatible

theorem Drawn.merge (left : c.Drawn sources fields cases) (right : c.Drawn sources others more) :
    c.Drawn sources (mergeAll fields others) (mergeCases cases more) := by
  constructor
  · intro key member
    rw [keys_mergeAll, mem_insertAll] at member
    exact member.elim (left.keyed key) (right.keyed key)
  · rw [mergeCases_eq]
    apply forall_mem_mergeBy left.listed right.listed
    rintro second inMore first named ⟨parent, selections, shape, listed, compiled, member⟩
    obtain ⟨other, others, twin, also, compiledAlso, inTwin⟩ := right.listed second inMore
    -- only one selection has a case of this condition, so that the case is merged with itself
    rcases compatible _ _ _ _ listed also _ _ compiled compiledAlso with rfl | beside
    · have kind := (wellKeyed_of_shape compiled).cases
      have equal : first = second :=
        eq_of_key_eq TypeCase.condition kind.conditions member inTwin named
      rw [equal, (kind.each second inTwin).absorb_self]
      exact ⟨_, _, _, also, compiledAlso, inTwin⟩
    · exact absurd named (beside.conditions first member second inTwin)
  · rw [mergeCases_eq, map_mergeBy TypeCase.condition_absorb]
    exact nodup_insertAll _ _ left.conditions

theorem Blend.drawn (blend : c.Blend sources fields cases) : c.Drawn sources fields cases := by
  induction blend with
  | empty => exact ⟨nofun, nofun, .nil⟩
  | source listed inside =>
    have compiled := shape_of_run (inside.outside (List.nil_subset _))
    exact ⟨fun key member => ⟨_, _, _, listed, compiled, member⟩,
      fun typeCase member => ⟨_, _, _, listed, compiled, member⟩,
      (wellKeyed_of_shape compiled).cases.conditions⟩
  | merge _ _ left right => exact left.merge compatible right

theorem Drawn.alternatives (drawn : c.Drawn sources fields cases) : Alternatives fields cases := by
  constructor
  · refine (List.pairwise_map.mp drawn.conditions).imp_of_mem ?_
    intro first second inFirst inSecond differ type listed also
    obtain ⟨parent, selections, left, ofFirst, one, inLeft⟩ := drawn.listed first inFirst
    obtain ⟨other, others, right, ofSecond, two, inRight⟩ := drawn.listed second inSecond
    rcases compatible _ _ _ _ ofFirst ofSecond _ _ one two with rfl | beside
    · obtain ⟨s, run, rfl⟩ := shape_eq_ok_iff.mp one
      exact differ (congrArg TypeCase.condition (finish_listed_once inLeft inRight listed also))
    · exact beside.types first inLeft second inRight type listed also
  · intro typeCase member key selected
    obtain ⟨parent, selections, left, ofCase, one, inLeft⟩ := drawn.listed typeCase member
    obtain ⟨other, others, right, ofKey, two, inRight⟩ := drawn.keyed key selected
    rcases compatible _ _ _ _ ofCase ofKey _ _ one two with rfl | beside
    · obtain ⟨s, run, rfl⟩ := shape_eq_ok_iff.mp one
      exact (alternatives_finish c parent s).complete typeCase inLeft inRight
    · exact beside.keysLeft typeCase inLeft inRight

end Compatible

/-- The fields of a case come from fields that are there for one of its types. -/
theorem Drawn.nodes (drawn : c.Drawn sources fields cases) {typeCase : TypeCase ResponseField}
    (member : typeCase ∈ cases) :
    ∃ object, ∀ child ∈ typeCase.fields, c.MadeFrom (c.onlyFor sources object child.responseName) child := by
  obtain ⟨parent, selections, shape, listed, compiled, inCases⟩ := drawn.listed typeCase member
  obtain ⟨s, run, rfl⟩ := shape_eq_ok_iff.mp compiled
  obtain ⟨object, _, ⟨resolved, inResolved, applies⟩, _, fields⟩ := ResolvedBranch.exists_first inCases
  obtain ⟨branch, _, rfl⟩ := List.mem_map.mp inResolved
  have possible := ((Branch.mem_types_resolve ..).mp applies).2
  obtain ⟨ofTarget, ofBranches⟩ := run.node_onlyFor listed possible
  refine ⟨object, fields _ (absorbing_node (c.onlyFor sources object)) ofTarget ?_⟩
  intro resolved inResolved applies
  obtain ⟨branch, inBranches, rfl⟩ := List.mem_map.mp inResolved
  exact ofBranches branch inBranches ((Branch.mem_types_resolve ..).mp applies).1

/-- If selections are compatible wherever they meet, the cases of every field that comes from them are
    alternatives, at every depth. -/
theorem alternatives_of_within {root : TypeDefinition} {start : List Selection}
    (compatible : ∀ parent selections other others, c.Meets root start parent selections other others →
      c.Compatible parent selections other others)
    {field : ResponseField} (within : Within field fields)
    (nodes : ∀ field ∈ fields, c.Sourced root start field) :
    Alternatives field.fields field.cases := by
  have drawn {sources : TypeDefinition → List Selection → Prop} {field : ResponseField}
      (meeting : c.Meeting root start sources) (node : c.MadeFrom sources field) :
      c.Drawn sources field.fields field.cases :=
    node.blend.drawn fun parent selections other others listed also =>
      compatible _ _ _ _ (meeting parent selections other others listed also)
  have deep : c.Sourced root start field := by
    apply within.holds (fun field => Sourced.fields) _ nodes
    rintro field ⟨sources, meeting, node⟩ typeCase listed child member
    obtain ⟨object, below⟩ := (drawn meeting node).nodes listed
    exact ⟨_, meeting.onlyFor object child.responseName, below child member⟩
  obtain ⟨sources, meeting, node⟩ := deep
  exact (drawn meeting node).alternatives fun parent selections other others listed also =>
    compatible _ _ _ _ (meeting parent selections other others listed also)

end Compiler

namespace Overlap

/-- `n { x } n { ... on T { y } } n { ... on B { y } }` -/
def scattered : List Selection :=
  [field "n" [field "x" []], field "n" [inline "T" [field "y" []]],
    field "n" [inline "B" [field "y" []]]]

def scatteredField : ResponseField :=
  ⟨"n", "n", .named "A", none, false, [leaf "x"], [],
    [⟨"T", ["T"], [leaf "y"], []⟩, ⟨"B", ["T"], [leaf "y"], []⟩]⟩

theorem scattered_run : compiler.Run [] query false scattered {}
    ⟨⟨[scatteredField], []⟩, [], ["Int"]⟩ := Compiler.collectAll_eq_ok_iff.mp rfl

end Overlap

/-- If selections that meet under one key are compiled to the same shape or to none with cases, then
    the cases of every field and of every fragment are alternatives: they list different object
    types, and each has all that is selected for every type. -/
theorem alternatives_everywhere {schema : Schema} {options : Options} {document : Document}
    {compiled : Compiled} (done : document.compile schema options = .ok compiled)
    (agree : ∀ root start, document.Starts schema root start →
      ∀ parent selections other others,
        (document.compiler schema options.mergeSpreads).Meets root start parent selections other others →
        (document.compiler schema options.mergeSpreads).CasesAgree parent selections other others) :
    (∀ operation ∈ compiled.operations, ∀ field, Within field operation.fields →
      Alternatives field.fields field.cases) ∧
    ∀ fragment ∈ compiled.fragments, ∀ field, Within field [fragment.toField] →
      Alternatives field.fields field.cases := by
  have compatible (root : TypeDefinition) (start : List Selection) (starts : document.Starts schema root start)
      (parent : TypeDefinition) (selections : List Selection) (other : TypeDefinition)
      (others : List Selection)
      (meets : (document.compiler schema options.mergeSpreads).Meets root start parent selections other
        others) :
      (document.compiler schema options.mergeSpreads).Compatible parent selections other others :=
    (agree root start starts _ _ _ _ meets).compatible
  constructor
  · intro operation member field within
    obtain ⟨root, start, starts, sourced⟩ := Document.sourced_of_operation done member
    exact Compiler.alternatives_of_within (compatible root start starts) within sourced
  · intro fragment member field within
    obtain ⟨root, start, starts, sourced⟩ := Document.sourced_of_fragment done member
    exact Compiler.alternatives_of_within (compatible root start starts) within (by simpa using sourced)

/-- The same selection twice leaves the cases of `n` as they are. If three selections have `x`, a case
    for `T` and a case for `B`, the two cases list the same type and have no `x`. -/
theorem alternatives_repeated :
    (∃ compiled, (Document.ofQuery Overlap.repeated).compile Overlap.schema {} = .ok compiled ∧
      ∃ operation ∈ compiled.operations, ∃ field ∈ operation.fields,
        field.cases ≠ [] ∧ Alternatives field.fields field.cases) ∧
    (Document.ofQuery Overlap.scattered).validate Overlap.schema false = .ok () ∧
    ∃ compiled, (Document.ofQuery Overlap.scattered).compile Overlap.schema {} = .ok compiled ∧
      ∃ operation ∈ compiled.operations, operation.fields = [Overlap.scatteredField] ∧
        ¬Alternatives Overlap.scatteredField.fields Overlap.scatteredField.cases := by
  constructor
  · obtain ⟨compiled, operation, done, member, fields⟩ :=
      Document.compile_ofQuery rfl Overlap.repeated_run rfl rfl
    have inFields : Overlap.repeatedField ∈ operation.fields := by
      rw [fields]
      exact List.mem_singleton_self _
    refine ⟨compiled, done, operation, member, _, inFields, List.cons_ne_nil _ _, ?_⟩
    refine (alternatives_everywhere done ?_).1 operation member _ (.here inFields)
    intro root start starts parent selections other others meets left right compiled also
    obtain ⟨rfl, rfl⟩ := Document.starts_ofQuery rfl starts
    obtain ⟨rfl, rfl⟩ := Overlap.meets_repeated meets
    exact .inl (Except.ok.inj (compiled.symm.trans also))
  · obtain ⟨compiled, operation, done, member, fields⟩ :=
      Document.compile_ofQuery rfl Overlap.scattered_run rfl rfl
    refine ⟨rfl, compiled, done, operation, member, fields, ?_⟩
    intro alternatives
    have complete := alternatives.complete _ List.mem_cons_self
    exact absurd (complete (a := "x") (by decide)) (by decide)

end QueryTypes
