import QueryTypes.Compiled
import QueryTypes.Proofs.Collecting

namespace QueryTypes

/-- The fragments that are being expanded, the innermost first, and the stacks there were on the way. -/
structure SpreadStack where
  names : List String
  passed : List (List String)

/-- A computation that changes the stack and may fail. It gives nothing if its calls are nested too deep. -/
abbrev Spreading : Type → Type := ExceptT Error (StateT SpreadStack Option)

namespace Spreading

variable {α β : Type}

def tooDeep : Spreading α := fun _ => none

def names : Spreading (List String) := return (← get).names

def change (update : List String → List String) : Spreading Unit :=
  modify fun stack => ⟨update stack.names, stack.passed ++ [update stack.names]⟩

def push (name : String) : Spreading Unit := change (name :: ·)

def pop : Spreading Unit := change List.tail

/-- Runs a body with a name on the stack, which is taken off behind it whether it failed or not. -/
def within (name : String) (body : Spreading α) : Spreading α := do
  push name
  let result ← ExceptT.lift body.run
  pop
  result

mutual
def shape (c : Compiler) : Nat → TypeDefinition → List Selection → Spreading Shape
  | 0, _, _ => tooDeep
  | depth + 1, parent, selections => do
    return c.finish parent (← collectAll c depth parent false selections {})

def collectAll (c : Compiler) : Nat → TypeDefinition → Bool → List Selection → Collection → Spreading Collection
  | 0, _, _, _, _ => tooDeep
  | _ + 1, _, _, [], s => return s
  | depth + 1, parent, conditional, selection :: rest, s => do
    let s ← collect c depth parent conditional selection s
    collectAll c depth parent conditional rest s

def collect (c : Compiler) : Nat → TypeDefinition → Bool → Selection → Collection → Spreading Collection
  | 0, _, _, _, _ => tooDeep
  | depth + 1, parent, conditional, .field head _ selections, s => do
    let compiled ← field c depth parent (conditional || isConditional head.directives) head selections
    return s.record compiled.1 compiled.2
  | depth + 1, parent, conditional, .inline head _ selections, s => do
    let condition ← c.inlineType parent head
    branchOut c depth parent condition (conditional || isConditional head.directives) selections s
  | depth + 1, parent, conditional, .spread spread, s => do
    if c.mergeSpreads then
      if spread.name ∈ (← names) then throw (.compiler (.recursiveFragment spread.name))
      else
        match c.fragment? spread.name with
        | none => throw (.compiler (.unknownFragment spread.name))
        | some definition =>
          let condition ← c.composite definition.condition
          within spread.name (branchOut c depth parent condition (conditional || isConditional spread.directives)
            definition.selectionSet.items (s.addSpread spread.name))
    else return s.addSpread spread.name

def branchOut (c : Compiler) : Nat → TypeDefinition → TypeDefinition → Bool → List Selection → Collection →
    Spreading Collection
  | 0, _, _, _, _, _ => tooDeep
  | depth + 1, parent, condition, conditional, selections, s => do
    if c.opens parent condition then
      let filled ← collectAll c depth condition conditional selections (s.enter condition.name)
      return filled.leave s condition.name
    else collectAll c depth parent conditional selections s

def field (c : Compiler) : Nat → TypeDefinition → Bool → FieldHead → List Selection →
    Spreading (ResponseField × List String)
  | 0, _, _, _, _ => tooDeep
  | depth + 1, parent, conditional, head, selections => do
    let found ← c.fieldType parent head.name
    let shape ← if found.2.isComposite then shape c depth found.2 selections else pure ⟨[], [], [], [found.2.name]⟩
    return (Compiler.makeField head found.1 conditional shape, shape.leaves)
end

def fragment (c : Compiler) (depth : Nat) (definition : Fragment) : Spreading Shape := do
  let parent ← c.composite definition.condition
  within definition.name (shape c depth parent definition.selectionSet.items)

def operation (c : Compiler) (depth : Nat) (definition : Operation) : Spreading Collection := do
  let root ← c.schema.root definition.kind
  collectAll c depth root false definition.selectionSet.items {}

section Unwinds

variable {stack : List String} {run : Nat → Spreading α} {next : α → Nat → Spreading β} {result : Except Error α}
  {onward : α → Except Error β}

/-- From the stack the computation has the result whenever its calls may be nested deep enough, and leaves
    the stack as it was. On the way no name is on it twice, if none was before. -/
def Unwinds (stack : List String) (run : Nat → Spreading α) (result : Except Error α) : Prop :=
  ∃ enough more, (∀ depth passed, enough ≤ depth →
      run depth ⟨stack, passed⟩ = some (result, ⟨stack, passed ++ more⟩)) ∧
    (stack.Nodup → ∀ names ∈ more, names.Nodup)

theorem Unwinds.of_still (still : ∀ depth passed, run depth ⟨stack, passed⟩ = some (result, ⟨stack, passed⟩)) :
    Unwinds stack run result :=
  ⟨0, [], fun depth passed _ => by rw [List.append_nil, still], fun _ => by simp⟩

theorem Unwinds.pure (a : α) : Unwinds stack (fun _ => Pure.pure a) (.ok a) := .of_still fun _ _ => rfl

theorem Unwinds.lift (result : Except Error α) : Unwinds stack (fun _ => liftM result) result :=
  .of_still fun _ _ => rfl

theorem Unwinds.throw (e : Error) : Unwinds stack (fun _ => (throw e : Spreading α)) (.error e) :=
  .of_still fun _ _ => rfl

theorem Unwinds.call (inside : Unwinds stack (fun depth => run (depth + 1)) result) : Unwinds stack run result := by
  obtain ⟨enough, more, ends, distinct⟩ := inside
  refine ⟨enough + 1, more, fun depth passed deep => ?_, distinct⟩
  obtain ⟨depth, rfl⟩ : ∃ below, depth = below + 1 := Nat.exists_eq_add_one.mpr (by omega)
  exact ends depth passed (by omega)

section Bind

variable {first : Spreading α} {start middle : SpreadStack} (next : α → Spreading β)

theorem bind_apply (first : Spreading α) (start : SpreadStack) : (first >>= next) start =
    (first start).bind fun ended => ExceptT.bindCont next ended.1 ended.2 := rfl

theorem bind_of_ok {a : α} (ran : first start = some (.ok a, middle)) : (first >>= next) start = next a middle := by
  rw [bind_apply, ran]
  rfl

theorem bind_of_error {e : Error} (ran : first start = some (.error e, middle)) :
    (first >>= next) start = some (.error e, middle) := by
  rw [bind_apply, ran]
  rfl

end Bind

theorem Unwinds.bind (first : Unwinds stack run result) (continues : ∀ a, Unwinds stack (next a) (onward a)) :
    Unwinds stack (fun depth => run depth >>= fun a => next a depth) (result >>= onward) := by
  obtain ⟨enough, early, ends, distinct⟩ := first
  cases result with
  | error e => exact ⟨enough, early, fun depth passed deep => bind_of_error _ (ends depth passed deep), distinct⟩
  | ok a =>
    obtain ⟨further, late, finishes, lateDistinct⟩ := continues a
    refine ⟨max enough further, early ++ late, fun depth passed deep => ?_, fun own => ?_⟩
    · have finished := finishes depth (passed ++ early) (by omega)
      rw [List.append_assoc] at finished
      exact (bind_of_ok _ (ends depth passed (by omega))).trans finished
    · exact List.forall_mem_append.mpr ⟨distinct own, lateDistinct own⟩

theorem Unwinds.read {next : List String → Nat → Spreading α} (inside : Unwinds stack (next stack) result) :
    Unwinds stack (fun depth => names >>= fun found => next found depth) result := by
  obtain ⟨enough, more, ends, distinct⟩ := inside
  refine ⟨enough, more, fun depth passed deep => ?_, distinct⟩
  have found : names ⟨stack, passed⟩ = some (.ok stack, ⟨stack, passed⟩) := rfl
  exact (bind_of_ok _ found).trans (ends depth passed deep)

theorem lift_apply (body : Spreading α) (start : SpreadStack) :
    (ExceptT.lift body.run : Spreading (Except Error α)) start =
      (body start).bind fun ended => some (.ok ended.1, ended.2) := rfl

theorem within_apply {name : String} {body : Spreading α} {passed later : List (List String)}
    (ran : body ⟨name :: stack, passed ++ [name :: stack]⟩ = some (result, ⟨name :: stack, later⟩)) :
    within name body ⟨stack, passed⟩ = some (result, ⟨stack, later ++ [stack]⟩) := by
  have pushed : push name ⟨stack, passed⟩ = some (.ok (), ⟨name :: stack, passed ++ [name :: stack]⟩) := rfl
  have caught : (ExceptT.lift body.run : Spreading _) ⟨name :: stack, passed ++ [name :: stack]⟩ =
      some (.ok result, ⟨name :: stack, later⟩) := by
    rw [lift_apply, ran]
    rfl
  have popped : pop ⟨name :: stack, later⟩ = some (.ok (), ⟨stack, later ++ [stack]⟩) := rfl
  unfold within
  rw [bind_of_ok _ pushed, bind_of_ok _ caught, bind_of_ok _ popped]
  rfl

/-- What is put on the stack is new and is taken off it again. -/
theorem Unwinds.within {name : String} (fresh : name ∉ stack) (inside : Unwinds (name :: stack) run result) :
    Unwinds stack (fun depth => within name (run depth)) result := by
  obtain ⟨enough, more, ends, distinctInside⟩ := inside
  refine ⟨enough, (name :: stack) :: (more ++ [stack]), fun depth passed deep => ?_, fun distinct => ?_⟩
  · simpa using within_apply (ends depth (passed ++ [name :: stack]) deep)
  · have longer : (name :: stack).Nodup := List.nodup_cons.mpr ⟨fresh, distinct⟩
    refine List.forall_mem_cons.mpr ⟨longer, List.forall_mem_append.mpr ⟨distinctInside longer, ?_⟩⟩
    exact List.forall_mem_singleton.mpr distinct

end Unwinds

end Spreading

namespace Compiler

def fieldFrom (c : Compiler) (stack : List String) (parent : TypeDefinition) (conditional : Bool) (head : FieldHead)
    (selections : List Selection) : Except Error (ResponseField × List String) := do
  let found ← c.fieldType parent head.name
  let shape ← if found.2.isComposite then c.shape stack found.2 selections else pure ⟨[], [], [], [found.2.name]⟩
  return (makeField head found.1 conditional shape, shape.leaves)

theorem collect_field (c : Compiler) (stack : List String) (parent : TypeDefinition) (conditional : Bool)
    (head : FieldHead) (span : Span) (selections : List Selection) (s : Collection) :
    c.collect (c.expand stack) parent conditional (.field head span selections) s = do
      let compiled ← c.fieldFrom stack parent (conditional || isConditional head.directives) head selections
      return s.record compiled.1 compiled.2 := by
  rw [collect, fieldFrom]
  cases c.fieldType parent head.name with
  | error e => rfl
  | ok found =>
    obtain ⟨definition, type⟩ := found
    simp only [ok_bind]
    cases type.isComposite with
    | false => rfl
    | true =>
      simp only [↓reduceIte, shape, collectFrom]
      cases c.collectAll (c.expand stack) type false selections {} <;> rfl

end Compiler

namespace Spreading

variable {c : Compiler} {stack : List String}

theorem Unwinds.finish {parent : TypeDefinition} {selections : List Selection}
    (inside : Unwinds stack (collectAll c · parent false selections {}) (c.collectFrom stack parent selections)) :
    Unwinds stack (shape c · parent selections) (c.shape stack parent selections) := by
  apply Unwinds.call
  simp only [shape]
  exact inside.bind fun s => .pure _

theorem unwinds_branchOut {parent condition : TypeDefinition} {conditional : Bool} {selections : List Selection}
    {collected : TypeDefinition → Collection → Except Error Collection}
    (inside : ∀ type s, Unwinds stack (collectAll c · type conditional selections s) (collected type s))
    (s : Collection) : Unwinds stack (branchOut c · parent condition conditional selections s)
      (c.branchOut parent condition collected s) := by
  apply Unwinds.call
  simp only [branchOut]
  rw [Compiler.branchOut_eq]
  cases c.opens parent condition with
  | false => exact inside parent s
  | true => exact (inside condition _).bind fun filled => .pure _

theorem unwinds_field {selections : List Selection}
    (inside : ∀ type, Unwinds stack (shape c · type selections) (c.shape stack type selections))
    (parent : TypeDefinition) (conditional : Bool) (head : FieldHead) :
    Unwinds stack (field c · parent conditional head selections)
      (c.fieldFrom stack parent conditional head selections) := by
  apply Unwinds.call
  simp only [field]
  refine (Unwinds.lift _).bind fun found => ?_
  cases found.2.isComposite with
  | false => exact (Unwinds.pure _).bind fun shape => .pure _
  | true => exact (inside found.2).bind fun shape => .pure _

def UnwindsDeeper (c : Compiler) (stack : List String) : Prop :=
  ∀ name fragment, c.fragment? name = some fragment → name ∉ stack → ∀ parent conditional selections s,
    Unwinds (name :: stack) (collectAll c · parent conditional selections s)
      (c.collectAll (c.expand (name :: stack)) parent conditional selections s)

theorem UnwindsDeeper.spread (deeper : UnwindsDeeper c stack) (parent : TypeDefinition) (conditional : Bool)
    (spread : FragmentSpread) (s : Collection) :
    Unwinds stack (Spreading.collect c · parent conditional (.spread spread) s)
      (c.collect (c.expand stack) parent conditional (.spread spread) s) := by
  apply Unwinds.call
  simp only [Spreading.collect]
  rw [Compiler.collect]
  cases c.mergeSpreads with
  | false => exact .pure _
  | true =>
    refine Unwinds.read ?_
    rw [if_pos rfl, Compiler.expand_eq]
    by_cases spreads : spread.name ∈ stack
    · simp only [if_pos spreads]
      exact .throw _
    · simp only [if_neg spreads]
      cases found : c.fragment? spread.name with
      | none => exact .throw _
      | some fragment =>
        refine (Unwinds.lift _).bind fun condition => ?_
        refine .within spreads (unwinds_branchOut (fun type s => ?_) _)
        exact deeper spread.name fragment found spreads type _ fragment.selectionSet.items s

mutual
theorem UnwindsDeeper.collect (deeper : UnwindsDeeper c stack) (parent : TypeDefinition) (conditional : Bool) :
    (selection : Selection) → ∀ s, Unwinds stack (Spreading.collect c · parent conditional selection s)
      (c.collect (c.expand stack) parent conditional selection s)
  | .field head span selections, s => by
    apply Unwinds.call
    simp only [Spreading.collect]
    rw [Compiler.collect_field]
    refine (unwinds_field (fun type => ?_) parent _ head).bind fun compiled => .pure _
    exact (deeper.collectAll type false selections {}).finish
  | .inline head span selections, s => by
    apply Unwinds.call
    simp only [Spreading.collect]
    rw [Compiler.collect]
    refine (Unwinds.lift _).bind fun condition => ?_
    exact unwinds_branchOut (fun type s => deeper.collectAll type _ selections s) s
  | .spread spread, s => deeper.spread parent conditional spread s

theorem UnwindsDeeper.collectAll (deeper : UnwindsDeeper c stack) (parent : TypeDefinition) (conditional : Bool) :
    (selections : List Selection) → ∀ s, Unwinds stack (Spreading.collectAll c · parent conditional selections s)
      (c.collectAll (c.expand stack) parent conditional selections s)
  | [], s => by
    apply Unwinds.call
    simp only [Spreading.collectAll]
    exact .pure s
  | selection :: rest, s => by
    apply Unwinds.call
    simp only [Spreading.collectAll]
    rw [Compiler.collectAll]
    -- the rest starts from the stack that the first selection has left
    refine (deeper.collect parent conditional selection s).bind fun s => ?_
    exact deeper.collectAll parent conditional rest s
end

theorem unwindsDeeper (c : Compiler) (stack : List String) : UnwindsDeeper c stack := by
  induction stack using c.stack_induction with
  | step stack deeper =>
    intro name fragment found fresh parent conditional selections s
    exact (deeper name fragment found fresh).collectAll parent conditional selections s

section Every

variable (c : Compiler) (stack : List String)

theorem unwinds_collectAll (parent : TypeDefinition) (conditional : Bool) (selections : List Selection)
    (s : Collection) : Unwinds stack (collectAll c · parent conditional selections s)
      (c.collectAll (c.expand stack) parent conditional selections s) :=
  (unwindsDeeper c stack).collectAll parent conditional selections s

theorem unwinds_shape (parent : TypeDefinition) (selections : List Selection) :
    Unwinds stack (shape c · parent selections) (c.shape stack parent selections) :=
  (unwinds_collectAll c stack parent false selections {}).finish

theorem unwinds_fragment {definition : Fragment} (fresh : definition.name ∉ stack) :
    Unwinds stack (fragment c · definition) (do
      let parent ← c.composite definition.condition
      c.shape (definition.name :: stack) parent definition.selectionSet.items) := by
  unfold fragment
  refine (Unwinds.lift _).bind fun parent => ?_
  exact .within fresh (unwinds_shape c _ parent definition.selectionSet.items)

theorem unwinds_operation (definition : Operation) :
    Unwinds stack (operation c · definition) (do
      let root ← c.schema.root definition.kind
      c.collectFrom stack root definition.selectionSet.items) := by
  unfold operation
  refine (Unwinds.lift _).bind fun root => ?_
  exact unwinds_collectAll c stack root false definition.selectionSet.items {}

end Every

end Spreading

open Spreading

/-- Whatever the schema and the fragments are, and whether spreads are merged or not: to compile selections, to
    collect them, to collect those of a fragment and to compile a field needs calls of a bounded depth only, from
    every stack, and comes to an end with the result of the compiler and with the stack as it was, in success and
    in failure. From the empty stack, with which fragments and operations start, no name is on the stack twice
    at any time. -/
theorem spreads_unwind (c : Compiler) :
    (∀ stack parent selections,
      Unwinds stack (Spreading.shape c · parent selections) (c.shape stack parent selections)) ∧
    (∀ stack parent conditional selections s,
      Unwinds stack (Spreading.collectAll c · parent conditional selections s)
        (c.collectAll (c.expand stack) parent conditional selections s)) ∧
    (∀ stack parent condition conditional selections s,
      Unwinds stack (Spreading.branchOut c · parent condition conditional selections s)
        (c.branchOut parent condition
          (fun type s => c.collectAll (c.expand stack) type conditional selections s) s)) ∧
    (∀ stack parent conditional head selections,
      Unwinds stack (Spreading.field c · parent conditional head selections)
        (c.fieldFrom stack parent conditional head selections)) ∧
    (∀ definition : Fragment, ∃ enough passed, (∀ names ∈ passed, names.Nodup) ∧
      ∀ depth, enough ≤ depth → Spreading.fragment c depth definition ⟨[], []⟩ = some (do
        let parent ← c.composite definition.condition
        c.shape [definition.name] parent definition.selectionSet.items, ⟨[], passed⟩)) ∧
    ∀ definition : Operation, ∃ enough passed, (∀ names ∈ passed, names.Nodup) ∧
      ∀ depth, enough ≤ depth → Spreading.operation c depth definition ⟨[], []⟩ = some (do
        let root ← c.schema.root definition.kind
        c.collectFrom [] root definition.selectionSet.items, ⟨[], passed⟩) := by
  refine ⟨unwinds_shape c, unwinds_collectAll c, ?_, ?_, fun definition => ?_, fun definition => ?_⟩
  · intro stack parent condition conditional selections s
    exact unwinds_branchOut (fun type s => unwinds_collectAll c stack type conditional selections s) s
  · intro stack parent conditional head selections
    exact unwinds_field (fun type => unwinds_shape c stack type selections) parent conditional head
  · obtain ⟨enough, passed, ends, distinct⟩ := unwinds_fragment c [] List.not_mem_nil
    exact ⟨enough, passed, distinct List.nodup_nil, fun depth => ends depth []⟩
  · obtain ⟨enough, passed, ends, distinct⟩ := unwinds_operation c [] definition
    exact ⟨enough, passed, distinct List.nodup_nil, fun depth => ends depth []⟩

namespace Looping

def query : TypeDefinition := ⟨"Query", none, .object [] []⟩

def spreading (name other : String) : Fragment :=
  ⟨.start, name, "Query", [], ⟨default, [.spread ⟨.start, other, []⟩]⟩⟩

def compiler : Compiler := ⟨⟨[query], "Query", none, none⟩, [spreading "A" "B", spreading "B" "A"], true⟩

end Looping

example : Spreading.fragment Looping.compiler 6 (Looping.spreading "A" "B") ⟨[], []⟩ =
    some (.error (.compiler (.recursiveFragment "A")), ⟨[], [["A"], ["B", "A"], ["A"], []]⟩) := by rfl

end QueryTypes
