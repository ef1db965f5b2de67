import Mathlib.Logic.Relation
import QueryTypes.Proofs.Coherence
import QueryTypes.Proofs.Crossings
import QueryTypes.Proofs.Validity

namespace QueryTypes

namespace Compiler

/-- Selections that were checked on the type `above` are collected on the type `parent`. -/
structure Fits (c : Compiler) (parent above : TypeDefinition) : Prop where
  known : c.schema.type? parent.name = some parent
  knownAbove : c.schema.type? above.name = some above
  isSupertype : c.schema.isSupertype above parent = true

def Spreads (c : Compiler) (outer inner : String) : Prop :=
  ∃ fragment, c.fragment? outer = some fragment ∧
    inner ∈ Selection.spreadNamesAll fragment.selectionSet.items

variable {c : Compiler} {parent above : TypeDefinition}

theorem Fits.refl (known : c.schema.type? parent.name = some parent) : c.Fits parent parent :=
  ⟨known, known, by simp [Schema.isSupertype]⟩

/-- Inside a fragment the condition is checked on, and the type of the branch collected on. -/
theorem Fits.inside {condition : TypeDefinition} (known : c.schema.type? parent.name = some parent)
    (knownCondition : c.schema.type? condition.name = some condition) :
    c.Fits (c.insideOf parent condition) condition := by
  unfold insideOf
  cases opened : c.opens parent condition with
  | true => exact Fits.refl knownCondition
  | false => exact ⟨known, knownCondition, by simpa [opens] using opened⟩

theorem insideOf_self (parent : TypeDefinition) : c.insideOf parent parent = parent := by
  unfold insideOf
  split <;> rfl

end Compiler

/-- A validation without complaints about the fragments that a compiler merges, for a schema whose
    parts fit together. -/
structure Validation.Approves (v : Validation) (c : Compiler) : Prop where
  schema : v.schema = c.schema
  merges : c.mergeSpreads = true
  distinct : c.schema.Distinct
  coherent : c.schema.Coherent
  typename : (c.schema.type? "String").any TypeDefinition.isOutput = true
  fragment : ∀ name condition, v.condition? name = some condition →
    ∃ fragment, c.fragment? name = some fragment ∧ fragment.condition = condition
  accepted : ∀ name fragment, c.fragment? name = some fragment →
    ∃ condition, c.schema.type? fragment.condition = some condition ∧ condition.isComposite ∧
      v.Passes condition fragment.selectionSet.items

namespace Validation.Approves

open Compiler

variable {v : Validation} {c : Compiler} {parent above : TypeDefinition}

/-- A checked field is found on the type that it is collected on. It has subfields only if its type
    does, and these were checked on that type. -/
theorem field (approves : v.Approves c) (fits : c.Fits parent above) {head : FieldHead} {span : Span}
    {inner : List Selection} (accepted : v.Passes above [.field head span inner]) :
    ∃ definition type, c.fieldType parent head.name = .ok (definition, type) ∧
      c.schema.type? type.name = some type ∧ (type.isComposite = false → inner = []) ∧
      (type.isComposite = true → v.Passes type inner) := by
  obtain ⟨noSchema, noType, definition, found, below⟩ := accepted.field
  rw [approves.schema] at found below
  obtain ⟨own, foundOwn, sameType⟩ := approves.coherent.inheritsFields.field?_of_isSupertype
    approves.distinct fits.knownAbove fits.known fits.isSupertype noSchema noType found
  obtain ⟨type, known, output⟩ := approves.coherent.outputFields.type_of_field? approves.typename
    fits.known noSchema noType foundOwn
  rw [sameType] at known
  refine ⟨own, type, ?_, ?_, ?_, ?_⟩
  · simp only [fieldType, foundOwn, Compiler.type, sameType, known]
    rfl
  · rwa [Schema.name_of_type? known]
  · intro simple
    exact (below type known).1 (TypeDefinition.isLeaf_of_isOutput output simple)
  · exact (below type known).2

/-- A checked fragment can be collected. Its selections were checked on a type that fits the one
    they are collected on, and its condition is possible where it stands. -/
theorem fragmentOn (approves : v.Approves c) (fits : c.Fits parent above) {selection : Selection}
    (isFragment : selection.key? = none) (accepted : v.Passes above [selection]) :
    ∃ condition inner checked, c.FragmentOn parent selection condition inner ∧
      c.Fits (c.insideOf parent condition) checked ∧ v.Passes checked inner ∧
      (condition = parent ∨ v.overlap above condition) := by
  cases selection with
  | field head span inner => cases isFragment
  | inline head span inner =>
    rcases accepted.inline with ⟨unconditional, below⟩ |
      ⟨name, condition, conditional, found, hasFields, overlaps, below⟩
    · refine ⟨parent, inner, above, .inline (by simp [inlineType, unconditional]), ?_, below, .inl rfl⟩
      rwa [insideOf_self]
    · rw [approves.schema] at found
      have knownCondition : c.schema.type? condition.name = some condition := by
        rwa [Schema.name_of_type? found]
      exact ⟨condition, inner, condition,
        .inline (by simp [inlineType, conditional, Compiler.composite_eq_ok, found, hasFields]),
        .inside fits.known knownCondition, below, .inr overlaps⟩
  | spread spread =>
    obtain ⟨name, declared, overlaps⟩ := accepted.spread
    obtain ⟨fragment, found, rfl⟩ := approves.fragment _ _ declared
    obtain ⟨condition, known, hasFields, below⟩ := approves.accepted _ _ found
    have knownCondition : c.schema.type? condition.name = some condition := by
      rwa [Schema.name_of_type? known]
    exact ⟨condition, fragment.selectionSet.items, condition,
      .spread approves.merges found (Compiler.composite_eq_ok.mpr ⟨known, hasFields⟩),
      .inside fits.known knownCondition, below,
      .inr (overlaps condition (approves.schema ▸ known) hasFields)⟩

end Validation.Approves

namespace Compiler

structure Expands (c : Compiler) (v : Validation) (stack : List String) (name : String) : Prop where
  fresh : name ∉ stack
  collected : ∃ fragment parent above conditional s s', c.fragment? name = some fragment ∧
    c.Fits parent above ∧ v.Passes above fragment.selectionSet.items ∧
    c.Run (name :: stack) parent conditional fragment.selectionSet.items s s'

variable {v : Validation} {c : Compiler} {parent above : TypeDefinition}

theorem FragmentOn.key?_eq_none {selection : Selection} {condition : TypeDefinition}
    {inner : List Selection} (fragment : c.FragmentOn parent selection condition inner) :
    selection.key? = none := by
  cases fragment <;> rfl

theorem FragmentOn.expands (approves : v.Approves c) {stack : List String} {selection : Selection}
    {condition type : TypeDefinition} {inner : List Selection} {conditional : Bool}
    {s s' : Collection} (fragment : c.FragmentOn parent selection condition inner)
    (fresh : ∀ name ∈ selection.spreadName?, name ∉ stack) (fits : c.Fits parent above)
    (accepted : v.Passes above [selection]) (place : c.insideOf parent condition = type)
    (inside : c.Run (selection.spreadName?.toList ++ stack) type conditional inner s s')
    (deeper : ∀ {checked}, c.Fits type checked → v.Passes checked inner →
      ∀ name ∈ Selection.spreadNamesAll inner,
        c.Expands v (selection.spreadName?.toList ++ stack) name) :
    ∀ name ∈ selection.spreadNames, c.Expands v stack name := by
  intro name spread
  obtain ⟨_, _, checked, again, fitsInside, acceptedBelow, _⟩ :=
    approves.fragmentOn fits fragment.key?_eq_none accepted
  obtain ⟨rfl, rfl⟩ := fragment.unique again
  subst place
  cases fragment with
  | inline resolved =>
    rw [Selection.spreadNames] at spread
    exact deeper fitsInside acceptedBelow name spread
  | spread merged found resolved =>
    rw [Selection.spreadNames, List.mem_singleton] at spread
    subst spread
    exact ⟨fresh _ rfl, _, _, _, _, _, _, found, fitsInside, acceptedBelow, inside⟩

/-- All fragments that are spread in selections are expanded when these are collected. -/
theorem Run.expands (approves : v.Approves c) {stack : List String} {conditional : Bool}
    {selections : List Selection} {s s' : Collection}
    (run : c.Run stack parent conditional selections s s') (fits : c.Fits parent above)
    (accepted : v.Passes above selections) :
    ∀ name ∈ Selection.spreadNamesAll selections, c.Expands v stack name := by
  induction run generalizing above with
  | nil => exact nofun
  | leaf looked simple after ih =>
    obtain ⟨_, type, same, _, empty, _⟩ := approves.field fits accepted.head
    cases looked.symm.trans same
    -- what is selected below a leaf is not collected, and there is nothing
    rw [Selection.spreadNamesAll, Selection.spreadNames, empty simple]
    exact ih fits accepted.tail
  | composite looked hasFields inside after below ih =>
    obtain ⟨_, type, same, known, _, acceptedBelow⟩ := approves.field fits accepted.head
    cases looked.symm.trans same
    rw [Selection.spreadNamesAll, Selection.spreadNames, List.forall_mem_append]
    exact ⟨below (.refl known) (acceptedBelow hasFields), ih fits accepted.tail⟩
  | merge fragment fresh applies inside after below ih =>
    rw [Selection.spreadNamesAll, List.forall_mem_append]
    refine ⟨?_, ih fits accepted.tail⟩
    exact fragment.expands approves fresh fits accepted.head (by simp [insideOf, applies]) inside below
  | branch fragment fresh opened inside after below ih =>
    rw [Selection.spreadNamesAll, List.forall_mem_append]
    refine ⟨?_, ih fits accepted.tail⟩
    exact fragment.expands approves fresh fits accepted.head (by simp [insideOf, opened]) inside below
  | mention unmerged after ih =>
    rw [approves.merges] at unmerged
    cases unmerged

theorem Expands.spreads (approves : v.Approves c) {stack : List String} {outer inner : String}
    (expands : c.Expands v stack outer) (spreads : c.Spreads outer inner) :
    c.Expands v (outer :: stack) inner := by
  obtain ⟨_, fragment, parent, above, conditional, s, s', found, fits, accepted, run⟩ := expands
  obtain ⟨other, also, spread⟩ := spreads
  cases found.symm.trans also
  exact run.expands approves fits accepted inner spread

/-- A fragment that is collected with success, with its own name on the stack, does not spread
    itself. -/
theorem Run.acyclic (approves : v.Approves c) {name : String} {fragment : Fragment}
    {conditional : Bool} {s s' : Collection} (found : c.fragment? name = some fragment)
    (run : c.Run [name] parent conditional fragment.selectionSet.items s s')
    (fits : c.Fits parent above) (accepted : v.Passes above fragment.selectionSet.items) :
    ¬Relation.TransGen c.Spreads name name := by
  have expands {inner : String} (way : Relation.TransGen c.Spreads name inner) :
      ∃ stack, name ∈ stack ∧ c.Expands v stack inner := by
    induction way with
    | single spreads =>
      obtain ⟨other, also, spread⟩ := spreads
      cases found.symm.trans also
      exact ⟨[name], List.mem_singleton_self name, run.expands approves fits accepted _ spread⟩
    | tail _ spreads ih =>
      obtain ⟨stack, member, expands⟩ := ih
      exact ⟨_, List.mem_cons_of_mem _ member, expands.spreads approves spreads⟩
  -- the stack grows on the way, so the name is still on it when it is met again
  intro cycle
  obtain ⟨stack, member, again⟩ := expands cycle
  exact again.fresh member

end Compiler

end QueryTypes
