import QueryTypes.Writer.Program

namespace QueryTypes

namespace Writer

variable (w : Writer) (text : String)

@[simp] theorem level_newline : w.newline.level = w.level := by
  unfold newline
  split <;> rfl

@[simp] theorem scopes_newline : w.newline.scopes = w.scopes := by
  unfold newline
  split <;> rfl

@[simp] theorem level_newlineIfNeeded : w.newlineIfNeeded.level = w.level := by
  unfold newlineIfNeeded
  split
  · rfl
  · exact w.level_newline

@[simp] theorem scopes_newlineIfNeeded : w.newlineIfNeeded.scopes = w.scopes := by
  unfold newlineIfNeeded
  split
  · rfl
  · exact w.scopes_newline

@[simp] theorem level_onNewline : (w.onNewline text).level = w.level := by
  unfold onNewline
  split
  · rfl
  · exact w.level_newline

@[simp] theorem scopes_onNewline : (w.onNewline text).scopes = w.scopes := by
  unfold onNewline
  split
  · rfl
  · exact w.scopes_newline

end Writer

namespace Step

def change? : Step → Option (Writer → Writer)
  | .print text => some (·.print text)
  | .newline => some Writer.newline
  | .newlineIfNeeded => some Writer.newlineIfNeeded
  | .onNewline text => some (·.onNewline text)
  | .pushScope name => some (·.pushScope name)
  | .popScope => some Writer.popScope
  | _ => none

/-- How an instruction frames its body: with the writer that the body starts with, and with what is
    done to the writer behind the body, whether that failed or not. -/
structure Frame where
  start : Writer
  body : List Step
  finish : Writer → Writer

def frame? (w : Writer) : Step → Option Frame
  | .withScope name body => some ⟨w.pushScope name, body, (·.keepScopes w.scopes.length)⟩
  | .withIndent body => some ⟨w.enter, body, (·.leave w.scopes.length)⟩
  | .block body =>
    some ⟨(w.print " \x7b").enter, body, fun inner => (inner.leave w.scopes.length).onNewline "\x7d"⟩
  | .blockWith opening closing body =>
    some ⟨(w.print opening).enter, body, fun inner => (inner.leave w.scopes.length).onNewline closing⟩
  | _ => none

theorem run_of_change {step : Step} {change : Writer → Writer} (plain : step.change? = some change) (w : Writer) :
    run w step = .done (change w) := by
  cases step <;> cases plain <;> rw [run]

theorem trace_of_change {step : Step} {change : Writer → Writer} (plain : step.change? = some change) (w : Writer) :
    trace w step = [⟨step, w, run w step⟩] := by
  cases step <;> cases plain <;> rfl

section Frame

variable {w : Writer} {step : Step} {frame : Frame} (framed : step.frame? w = some frame)

include framed

theorem run_of_frame : run w step = (runAll frame.start frame.body).thenDo frame.finish := by
  cases step <;> cases framed <;> rw [run]

theorem trace_of_frame : trace w step = traceAll frame.start frame.body ++ [⟨step, w, run w step⟩] := by
  cases step <;> cases framed <;> rw [trace]

theorem prefix_scopes_start : w.scopes <+: frame.start.scopes := by
  cases step <;> cases framed
  · exact List.prefix_append _ _
  all_goals exact List.prefix_rfl

/-- Whatever a frame does behind its body, it keeps no more scopes than there were before. -/
theorem scopes_finish (inner : Writer) : (frame.finish inner).scopes = inner.scopes.take w.scopes.length := by
  cases step <;> cases framed <;> simp [Writer.leave, Writer.keepScopes]

end Frame

theorem trace_attempt (w : Writer) (body : List Step) :
    trace w (.attempt body) = traceAll w body ++ [⟨.attempt body, w, run w (.attempt body)⟩] := by
  rw [trace]

theorem trace_fail (w : Writer) (message : String) :
    trace w (.fail message) = [⟨.fail message, w, ⟨some message, w⟩⟩] := rfl

section Turns

variable {w : Writer} {step : Step} {rest : List Step}

theorem runAll_of_failed (failed : (run w step).failure.isSome = true) : runAll w (step :: rest) = run w step := by
  rw [runAll, if_pos failed]

theorem runAll_of_done (done : (run w step).failure.isSome = false) :
    runAll w (step :: rest) = runAll (run w step).writer rest := by
  rw [runAll, if_neg (by simpa using done)]

theorem traceAll_of_failed (failed : (run w step).failure.isSome = true) :
    traceAll w (step :: rest) = trace w step := by
  rw [traceAll, if_pos failed, List.append_nil]

theorem traceAll_of_done (done : (run w step).failure.isSome = false) :
    traceAll w (step :: rest) = trace w step ++ traceAll (run w step).writer rest := by
  rw [traceAll, if_neg (by simpa using done)]

end Turns

section Induction

structure Inductive (one : Writer → Step → Prop) (all : Writer → List Step → Prop) : Prop where
  change : ∀ w step change, step.change? = some change → one w step
  frame : ∀ w step frame, step.frame? w = some frame → all frame.start frame.body → one w step
  attempt : ∀ w body, all w body → one w (.attempt body)
  fail : ∀ w message, one w (.fail message)
  nil : ∀ w, all w []
  failed : ∀ w step rest, (run w step).failure.isSome = true → one w step → all w (step :: rest)
  done : ∀ w step rest, (run w step).failure.isSome = false → one w step →
    all (run w step).writer rest → all w (step :: rest)

variable {one : Writer → Step → Prop} {all : Writer → List Step → Prop} (rules : Inductive one all)

include rules

mutual
theorem Inductive.step (w : Writer) : (step : Step) → one w step
  | .print _ => rules.change _ _ _ rfl
  | .newline => rules.change _ _ _ rfl
  | .newlineIfNeeded => rules.change _ _ _ rfl
  | .onNewline _ => rules.change _ _ _ rfl
  | .pushScope _ => rules.change _ _ _ rfl
  | .popScope => rules.change _ _ _ rfl
  | .withScope name body => rules.frame _ _ _ rfl (Inductive.steps (w.pushScope name) body)
  | .withIndent body => rules.frame _ _ _ rfl (Inductive.steps w.enter body)
  | .block body => rules.frame _ _ _ rfl (Inductive.steps (w.print " \x7b").enter body)
  | .blockWith opening _ body => rules.frame _ _ _ rfl (Inductive.steps (w.print opening).enter body)
  | .attempt body => rules.attempt _ _ (Inductive.steps w body)
  | .fail _ => rules.fail w _

theorem Inductive.steps (w : Writer) : (steps : List Step) → all w steps
  | [] => rules.nil w
  | step :: rest => by
    have own := Inductive.step w step
    cases ended : (run w step).failure.isSome with
    | true => exact rules.failed w step rest ended own
    | false => exact rules.done w step rest ended own (Inductive.steps (run w step).writer rest)
end

end Induction

section Relation

/-- A relation of writers that goes on from one instruction to the next. -/
structure Composes (related : Writer → Writer → Prop) : Prop where
  refl : ∀ w, related w w
  trans : ∀ {first second third}, related first second → related second third → related first third

structure Respects (related : Writer → Writer → Prop) (w : Writer) (step : Step) : Prop where
  change : ∀ change, step.change? = some change → related w (change w)
  frame : ∀ frame, step.frame? w = some frame →
    ∀ inner, related frame.start inner → related w (frame.finish inner)

def RespectedIn (related : Writer → Writer → Prop) (events : List Event) : Prop :=
  ∀ event ∈ events, event.step.Respects related event.before

variable {related : Writer → Writer → Prop} (composes : Composes related)

include composes

/-- A relation holds from the start to the end of a program if all instructions that come to their end
    in it respect the relation. -/
theorem Composes.inductive :
    Inductive (fun w step => RespectedIn related (trace w step) → related w (run w step).writer)
      (fun w steps => RespectedIn related (traceAll w steps) → related w (runAll w steps).writer) where
  change w step change plain each := by
    rw [trace_of_change plain] at each
    rw [run_of_change plain]
    exact (each _ List.mem_cons_self).change _ plain
  frame w step frame framed inside each := by
    rw [trace_of_frame framed] at each
    obtain ⟨inner, own⟩ := List.forall_mem_append.mp each
    rw [run_of_frame framed]
    exact (own _ List.mem_cons_self).frame _ framed _ (inside inner)
  attempt w body inside each := by
    rw [trace_attempt] at each
    rw [run]
    exact inside (List.forall_mem_append.mp each).1
  fail w message _ := by
    rw [run]
    exact composes.refl w
  nil w _ := composes.refl w
  failed w step rest failed own each := by
    rw [traceAll_of_failed failed] at each
    rw [runAll_of_failed failed]
    exact own each
  done w step rest done own onward each := by
    rw [traceAll_of_done done] at each
    obtain ⟨first, others⟩ := List.forall_mem_append.mp each
    rw [runAll_of_done done]
    exact composes.trans (own first) (onward others)

theorem Composes.run (w : Writer) (step : Step) (each : RespectedIn related (trace w step)) :
    related w (run w step).writer := composes.inductive.step w step each

theorem Composes.runAll (w : Writer) (steps : List Step) (each : RespectedIn related (traceAll w steps)) :
    related w (runAll w steps).writer := composes.inductive.steps w steps each

end Relation

section Level

def SameLevel (w after : Writer) : Prop := after.level = w.level

theorem composes_sameLevel : Composes SameLevel where
  refl _ := rfl
  trans first second := Eq.trans second first

theorem respects_sameLevel (w : Writer) (step : Step) : step.Respects SameLevel w where
  change := by
    intro change own
    cases step <;> cases own <;> simp [SameLevel, Writer.print, Writer.pushScope, Writer.popScope]
  frame := by
    intro frame framed inner same
    cases step <;> cases framed <;>
      simp_all [SameLevel, Writer.print, Writer.pushScope, Writer.enter, Writer.leave, Writer.keepScopes]

theorem level_runAll (w : Writer) (steps : List Step) : (runAll w steps).writer.level = w.level :=
  composes_sameLevel.runAll w steps fun event _ => respects_sameLevel event.before event.step

theorem level_run (w : Writer) (step : Step) : (run w step).writer.level = w.level :=
  composes_sameLevel.run w step fun event _ => respects_sameLevel event.before event.step

end Level

section Scopes

def isPopScope : Step → Bool
  | .popScope => true
  | _ => false

/-- No instruction by itself removes one of the first `depth` scopes. -/
def Spares (depth : Nat) (events : List Event) : Prop :=
  ∀ event ∈ events, event.step.isPopScope = true →
    event.before.scopes = [] ∨ depth < event.before.scopes.length

instance (depth : Nat) (events : List Event) : Decidable (Spares depth events) :=
  inferInstanceAs (Decidable (∀ event ∈ events, event.step.isPopScope = true →
    event.before.scopes = [] ∨ depth < event.before.scopes.length))

variable {kept : List String}

def KeepsScopes (kept : List String) (w after : Writer) : Prop := kept <+: w.scopes → kept <+: after.scopes

theorem composes_keepsScopes : Composes (KeepsScopes kept) where
  refl _ := id
  trans first second := second ∘ first

theorem prefix_popScope {w : Writer} (present : kept <+: w.scopes)
    (spared : w.scopes = [] ∨ kept.length < w.scopes.length) : kept <+: w.popScope.scopes := by
  rw [Writer.popScope, List.dropLast_eq_take, List.prefix_take_iff]
  rcases spared with none | more
  · rw [none] at present
    rw [List.prefix_nil.mp present]
    exact ⟨List.nil_prefix, Nat.zero_le _⟩
  · exact ⟨present, Nat.le_sub_one_of_lt more⟩

theorem respects_keepsScopes {w : Writer} {step : Step}
    (spared : step.isPopScope = true → w.scopes = [] ∨ kept.length < w.scopes.length) :
    step.Respects (KeepsScopes kept) w where
  change := by
    intro change own present
    cases step with
    | popScope =>
      cases own
      exact prefix_popScope present (spared rfl)
    | pushScope name =>
      cases own
      exact present.trans (List.prefix_append _ _)
    | _ => cases own <;> simpa [Writer.print] using present
  frame := by
    intro frame framed inner holds present
    have started := present.trans (prefix_scopes_start framed)
    rw [scopes_finish framed, List.prefix_take_iff]
    exact ⟨holds started, present.length_le⟩

theorem scopes_run_of_frame {w : Writer} {step : Step} {frame : Frame} (framed : step.frame? w = some frame)
    (spared : Spares w.scopes.length (traceAll frame.start frame.body)) :
    (run w step).writer.scopes = w.scopes := by
  have stays : w.scopes <+: (runAll frame.start frame.body).writer.scopes :=
    composes_keepsScopes.runAll frame.start frame.body
      (fun event member => respects_keepsScopes (spared event member)) (prefix_scopes_start framed)
  rw [run_of_frame framed]
  exact (scopes_finish framed _).trans (List.prefix_iff_eq_take.mp stays).symm

end Scopes

end Step

open Step

/-- Behind a scope, a level or a block the writer is on the level and in the scopes that it was in before,
    whether the body failed or not, and the failure is that of the body. The body may open scopes and
    leave them open, fail, and attempt what fails; it only must not remove the scopes around it. Those
    that it opened itself may be removed anywhere in it. -/
theorem run_unwinds {w : Writer} {step : Step} {frame : Frame} (framed : step.frame? w = some frame)
    (spared : Spares w.scopes.length (traceAll frame.start frame.body)) :
    (run w step).writer.level = w.level ∧ (run w step).writer.scopes = w.scopes ∧
      (run w step).failure = (runAll frame.start frame.body).failure := by
  refine ⟨level_run w step, scopes_run_of_frame framed spared, ?_⟩
  rw [run_of_frame framed]
  rfl

namespace Leaking

def start : Writer := ⟨"class A", ["Query"], 1, false⟩

def body : List Step :=
  [.pushScope "left",
    .attempt [.withIndent [.pushScope "open", .fail "inner"], .print "never"],
    .popScope,
    .withScope "field" [.popScope],
    .pushScope "behind",
    .fail "outer",
    .popScope]

end Leaking

theorem run_unwinds_leaking :
    (run Leaking.start (.blockWith " (" ")" Leaking.body)).writer.level = 1 ∧
      (run Leaking.start (.blockWith " (" ")" Leaking.body)).writer.scopes = ["Query"] ∧
      (run Leaking.start (.blockWith " (" ")" Leaking.body)).failure = some "outer" := by
  have framed : (Step.blockWith " (" ")" Leaking.body).frame? Leaking.start =
      some ⟨(Leaking.start.print " (").enter, Leaking.body, _⟩ := rfl
  exact run_unwinds framed (by decide)

end QueryTypes
