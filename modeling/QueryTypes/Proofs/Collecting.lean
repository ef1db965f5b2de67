import QueryTypes.Proofs.Results
import QueryTypes.Shape.Collect

namespace QueryTypes

namespace Selection

def spreadName? : Selection → Option String
  | .spread named => some named.name
  | _ => none

def directives : Selection → List Directive
  | .field head _ _ => head.directives
  | .inline head _ _ => head.directives
  | .spread named => named.directives

end Selection

namespace Collection

def record (s : Collection) (field : ResponseField) (leaves : List String) : Collection :=
  { s.addField field with leaves := insertAll s.leaves leaves }

def note (s : Collection) (selection : Selection) : Collection :=
  match selection.spreadName? with
  | some name => s.addSpread name
  | none => s

def enter (s : Collection) (condition : String) : Collection :=
  ⟨((s.branches.find? (·.condition == condition)).map Branch.content).getD {},
    putBy Branch.condition s.branches ⟨condition, {}⟩, s.leaves⟩

def leave (inner s : Collection) (condition : String) : Collection :=
  ⟨s.target, putBy Branch.condition inner.branches ⟨condition, inner.target⟩, inner.leaves⟩

end Collection

namespace Compiler

/-- Whether a fragment inside a selection on `parent` opens a branch. -/
def opens (c : Compiler) (parent condition : TypeDefinition) : Bool :=
  !c.schema.isSupertype condition parent

/-- A selection that is a fragment, its type condition and its selections. A spread is one only if
    spreads are merged. -/
inductive FragmentOn (c : Compiler) (parent : TypeDefinition) :
    Selection → TypeDefinition → List Selection → Prop
  | inline {head span inner condition} (resolved : c.inlineType parent head = .ok condition) :
    FragmentOn c parent (.inline head span inner) condition inner
  | spread {spread fragment condition} (merged : c.mergeSpreads = true)
    (found : c.fragment? spread.name = some fragment)
    (resolved : c.composite fragment.condition = .ok condition) :
    FragmentOn c parent (.spread spread) condition fragment.selectionSet.items

/-- How selections on a type are collected, inside the fragments on the stack: fields are recorded,
    a fragment is collected into the target or into the branch of its condition. -/
inductive Run (c : Compiler) :
    List String → TypeDefinition → Bool → List Selection → Collection → Collection → Prop
  | nil {stack parent conditional s} : Run c stack parent conditional [] s s
  | leaf {stack parent conditional head span inner rest definition type s s'}
    (looked : c.fieldType parent head.name = .ok (definition, type))
    (simple : type.isComposite = false)
    (after : Run c stack parent conditional rest
      (s.record (makeField head definition (conditional || isConditional head.directives)
        ⟨[], [], [], [type.name]⟩) [type.name]) s') :
    Run c stack parent conditional (.field head span inner :: rest) s s'
  | composite {stack parent conditional head span inner rest definition type below s s'}
    (looked : c.fieldType parent head.name = .ok (definition, type))
    (hasFields : type.isComposite = true) (inside : Run c stack type false inner {} below)
    (after : Run c stack parent conditional rest
      (s.record (makeField head definition (conditional || isConditional head.directives)
        (c.finish type below)) below.leaves) s') :
    Run c stack parent conditional (.field head span inner :: rest) s s'
  | merge {stack parent conditional selection rest condition inner s middle s'}
    (fragment : c.FragmentOn parent selection condition inner)
    (fresh : ∀ name ∈ selection.spreadName?, name ∉ stack)
    (applies : c.opens parent condition = false)
    (inside : Run c (selection.spreadName?.toList ++ stack) parent
      (conditional || isConditional selection.directives) inner (s.note selection) middle)
    (after : Run c stack parent conditional rest middle s') :
    Run c stack parent conditional (selection :: rest) s s'
  | branch {stack parent conditional selection rest condition inner s filled s'}
    (fragment : c.FragmentOn parent selection condition inner)
    (fresh : ∀ name ∈ selection.spreadName?, name ∉ stack)
    (opened : c.opens parent condition = true)
    (inside : Run c (selection.spreadName?.toList ++ stack) condition
      (conditional || isConditional selection.directives) inner
      ((s.note selection).enter condition.name) filled)
    (after : Run c stack parent conditional rest
      (filled.leave (s.note selection) condition.name) s') :
    Run c stack parent conditional (selection :: rest) s s'
  | mention {stack parent conditional spread rest s s'} (unmerged : c.mergeSpreads = false)
    (after : Run c stack parent conditional rest (s.addSpread spread.name) s') :
    Run c stack parent conditional (.spread spread :: rest) s s'

theorem branchOut_eq (c : Compiler) (parent condition : TypeDefinition)
    (collect : TypeDefinition → Collection → Except Error Collection) (s : Collection) :
    c.branchOut parent condition collect s =
      if c.opens parent condition then do
        let inner ← collect condition (s.enter condition.name)
        return inner.leave s condition.name
      else collect parent s := by
  unfold branchOut opens
  cases c.schema.isSupertype condition parent <;> rfl

theorem branchOut_eq_ok {c : Compiler} {parent condition : TypeDefinition}
    {collect : TypeDefinition → Collection → Except Error Collection} {s s' : Collection}
    (done : c.branchOut parent condition collect s = .ok s') :
    c.opens parent condition = false ∧ collect parent s = .ok s' ∨
      c.opens parent condition = true ∧
        ∃ filled, collect condition (s.enter condition.name) = .ok filled ∧
          s' = filled.leave s condition.name := by
  rw [branchOut_eq] at done
  cases opened : c.opens parent condition with
  | false => exact Or.inl ⟨rfl, by simpa [opened] using done⟩
  | true =>
    rw [if_pos opened, bind_eq_ok] at done
    obtain ⟨filled, collected, finished⟩ := done
    exact Or.inr ⟨rfl, filled, collected, (Except.ok.inj finished).symm⟩

theorem collect_leaf {c : Compiler} {expand : String → Expansion} {parent type : TypeDefinition}
    {head : FieldHead} {definition : FieldDefinition}
    (looked : c.fieldType parent head.name = .ok (definition, type))
    (simple : type.isComposite = false) (conditional : Bool) (span : Span) (inner : List Selection)
    (s : Collection) :
    c.collect expand parent conditional (.field head span inner) s =
      .ok (s.record (makeField head definition (conditional || isConditional head.directives)
        ⟨[], [], [], [type.name]⟩) [type.name]) := by
  rw [collect, looked]
  simp only [Bind.bind, Except.bind, Pure.pure, Except.pure, simple]
  rfl

theorem collect_composite {c : Compiler} {expand : String → Expansion}
    {parent type : TypeDefinition} {head : FieldHead} {definition : FieldDefinition}
    (looked : c.fieldType parent head.name = .ok (definition, type))
    (hasFields : type.isComposite = true) (conditional : Bool) (span : Span)
    (inner : List Selection) (s : Collection) :
    c.collect expand parent conditional (.field head span inner) s = do
      let below ← c.collectAll expand type false inner {}
      return s.record (makeField head definition (conditional || isConditional head.directives)
        (c.finish type below)) below.leaves := by
  rw [collect, looked]
  simp only [Bind.bind, Except.bind, Pure.pure, Except.pure, hasFields]
  cases c.collectAll expand type false inner {} <;> rfl

/-- Induction on the stack: what holds once it holds inside each fragment that can still be spread holds
    from every stack. A spread leads to the selections of another definition, which may be larger; what
    gets smaller is the number of fragments that are not on the stack. -/
theorem stack_induction (c : Compiler) {motive : List String → Prop}
    (step : ∀ stack, (∀ name fragment, c.fragment? name = some fragment → name ∉ stack →
      motive (name :: stack)) → motive stack) (stack : List String) : motive stack := by
  induction size : c.closed stack using Nat.strongRecOn generalizing stack with
  | ind size ih =>
    apply step
    intro name fragment found fresh
    have fewer := size ▸ c.closed_cons_lt stack name fragment found fresh
    exact ih _ fewer (name :: stack) rfl

theorem expand_eq (c : Compiler) (stack : List String) (name : String) (parent : TypeDefinition)
    (conditional : Bool) (s : Collection) :
    c.expand stack name parent conditional s =
      if name ∈ stack then .error (.compiler (.recursiveFragment name))
      else
        match c.fragment? name with
        | none => .error (.compiler (.unknownFragment name))
        | some fragment => (do
          let condition ← c.composite fragment.condition
          c.branchOut parent condition
            (fun type s => c.collectAll (c.expand (name :: stack)) type conditional
              fragment.selectionSet.items s) s) := by
  rw [expand]
  split
  · rfl
  · split <;> rename_i found <;> rw [found]

/-- A fragment is collected through `branchOut`, with its name on the stack if it has one. -/
theorem collect_fragmentOn {c : Compiler} {stack : List String} {parent condition : TypeDefinition}
    {selection : Selection} {inner : List Selection}
    (fragment : c.FragmentOn parent selection condition inner)
    (fresh : ∀ name ∈ selection.spreadName?, name ∉ stack) (conditional : Bool) (s : Collection) :
    c.collect (c.expand stack) parent conditional selection s =
      c.branchOut parent condition
        (fun type s => c.collectAll (c.expand (selection.spreadName?.toList ++ stack)) type
          (conditional || isConditional selection.directives) inner s) (s.note selection) := by
  cases fragment with
  | inline resolved =>
    simp only [collect, resolved, Bind.bind, Except.bind]
    rfl
  | @spread spread fragment condition merged found resolved =>
    have fresh : spread.name ∉ stack := fresh spread.name rfl
    rw [collect, if_pos merged, expand, dif_neg fresh]
    split
    · rename_i missing
      rw [found] at missing
      cases missing
    · rename_i other also
      cases found.symm.trans also
      simp only [resolved, Bind.bind, Except.bind]
      rfl

/-- A spread that is collected with success is not on the stack and names a fragment, or spreads
    are not merged. -/
theorem collect_spread_eq_ok {c : Compiler} {stack : List String} {parent : TypeDefinition}
    {conditional : Bool} {spread : FragmentSpread} {s s' : Collection}
    (done : c.collect (c.expand stack) parent conditional (.spread spread) s = .ok s') :
    c.mergeSpreads = false ∧ s' = s.addSpread spread.name ∨
      ∃ condition fragment, c.fragment? spread.name = some fragment ∧ spread.name ∉ stack ∧
        c.FragmentOn parent (.spread spread) condition fragment.selectionSet.items := by
  rw [collect] at done
  cases merged : c.mergeSpreads with
  | false =>
    rw [if_neg (by simp [merged])] at done
    exact Or.inl ⟨rfl, (Except.ok.inj done).symm⟩
  | true =>
    rw [if_pos merged, expand] at done
    split at done
    · cases done
    · rename_i fresh
      split at done
      · cases done
      · rename_i fragment found
        obtain ⟨condition, resolved, _⟩ := bind_eq_ok.mp done
        exact Or.inr ⟨condition, fragment, found, fresh, .spread merged found resolved⟩

/-- A fragment is collected as a run says if its selections are. -/
theorem run_of_collect_fragmentOn {c : Compiler} {stack : List String}
    {parent condition : TypeDefinition} {conditional : Bool} {selection : Selection}
    {inner rest : List Selection} {s middle s' : Collection}
    (fragment : c.FragmentOn parent selection condition inner)
    (fresh : ∀ name ∈ selection.spreadName?, name ∉ stack)
    (inside : ∀ type start finish,
      c.collectAll (c.expand (selection.spreadName?.toList ++ stack)) type
        (conditional || isConditional selection.directives) inner start = .ok finish →
      c.Run (selection.spreadName?.toList ++ stack) type
        (conditional || isConditional selection.directives) inner start finish)
    (done : c.collect (c.expand stack) parent conditional selection s = .ok middle)
    (after : c.Run stack parent conditional rest middle s') :
    c.Run stack parent conditional (selection :: rest) s s' := by
  rw [collect_fragmentOn fragment fresh] at done
  rcases branchOut_eq_ok done with ⟨applies, collected⟩ | ⟨opened, filled, collected, rfl⟩
  · exact .merge fragment fresh applies (inside _ _ _ collected) after
  · exact .branch fragment fresh opened (inside _ _ _ collected) after

mutual
theorem run_of_collect {c : Compiler} {stack : List String}
    (deeper : ∀ name fragment, c.fragment? name = some fragment → name ∉ stack →
      ∀ parent conditional selections s s',
        c.collectAll (c.expand (name :: stack)) parent conditional selections s = .ok s' →
        c.Run (name :: stack) parent conditional selections s s')
    (parent : TypeDefinition) (conditional : Bool) :
    (selection : Selection) → ∀ {rest s middle s'},
      c.collect (c.expand stack) parent conditional selection s = .ok middle →
      c.Run stack parent conditional rest middle s' →
      c.Run stack parent conditional (selection :: rest) s s'
  | .field head span inner, _, _, _, _, done, after => by
    have opened := done
    rw [collect] at opened
    obtain ⟨⟨definition, type⟩, looked, _⟩ := bind_eq_ok.mp opened
    cases hasFields : type.isComposite with
    | false =>
      rw [collect_leaf looked hasFields] at done
      cases done
      exact .leaf looked hasFields after
    | true =>
      rw [collect_composite looked hasFields] at done
      obtain ⟨below, collected, finished⟩ := bind_eq_ok.mp done
      cases finished
      exact .composite looked hasFields (run_of_collectAll deeper type false inner collected) after
  | .inline head span inner, _, _, _, _, done, after => by
    have opened := done
    rw [collect] at opened
    obtain ⟨condition, resolved, _⟩ := bind_eq_ok.mp opened
    apply run_of_collect_fragmentOn (.inline resolved) (by simp [Selection.spreadName?]) _ done after
    intro type start finish collected
    exact run_of_collectAll deeper type _ inner collected
  | .spread spread, _, _, _, _, done, after => by
    rcases collect_spread_eq_ok done with ⟨unmerged, rfl⟩ | ⟨condition, fragment, found, fresh, on⟩
    · exact .mention unmerged after
    · apply run_of_collect_fragmentOn on (by rintro _ ⟨⟩; exact fresh) _ done after
      intro type start finish collected
      exact deeper spread.name fragment found fresh _ _ _ _ _ collected

theorem run_of_collectAll {c : Compiler} {stack : List String}
    (deeper : ∀ name fragment, c.fragment? name = some fragment → name ∉ stack →
      ∀ parent conditional selections s s',
        c.collectAll (c.expand (name :: stack)) parent conditional selections s = .ok s' →
        c.Run (name :: stack) parent conditional selections s s')
    (parent : TypeDefinition) (conditional : Bool) :
    (selections : List Selection) → ∀ {s s'},
      c.collectAll (c.expand stack) parent conditional selections s = .ok s' →
      c.Run stack parent conditional selections s s'
  | [], _, _, done => by
    cases done
    exact .nil
  | selection :: rest, _, _, done => by
    rw [collectAll] at done
    obtain ⟨middle, first, others⟩ := bind_eq_ok.mp done
    exact run_of_collect deeper parent conditional selection first
      (run_of_collectAll deeper parent conditional rest others)
end

/-- Collecting succeeds exactly as runs say. -/
theorem collectAll_eq_ok_iff {c : Compiler} {stack : List String} {parent : TypeDefinition}
    {conditional : Bool} {selections : List Selection} {s s' : Collection} :
    c.collectAll (c.expand stack) parent conditional selections s = .ok s' ↔
      c.Run stack parent conditional selections s s' := by
  constructor
  · induction stack using c.stack_induction generalizing parent conditional selections s s' with
    | step stack deeper =>
      apply run_of_collectAll
      intro name fragment found fresh parent conditional selections s s' collected
      exact deeper name fragment found fresh collected
  · intro run
    induction run with
    | nil => rfl
    | leaf looked simple after ih =>
      rw [collectAll, collect_leaf looked simple]
      exact ih
    | composite looked hasFields inside after below ih =>
      rw [collectAll, collect_composite looked hasFields, below]
      exact ih
    | merge fragment fresh applies inside after below ih =>
      rw [collectAll, collect_fragmentOn fragment fresh, branchOut_eq, applies]
      simpa [Bind.bind, Except.bind, below] using ih
    | branch fragment fresh opened inside after below ih =>
      rw [collectAll, collect_fragmentOn fragment fresh, branchOut_eq, opened]
      simpa [Bind.bind, Except.bind, Pure.pure, Except.pure, below] using ih
    | mention unmerged after ih =>
      rw [collectAll, collect]
      simpa [Bind.bind, Except.bind, unmerged] using ih

end Compiler

end QueryTypes
