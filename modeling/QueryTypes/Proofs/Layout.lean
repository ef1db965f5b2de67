import QueryTypes.Proofs.Unwinding
import QueryTypes.Proofs.Writing

namespace QueryTypes

namespace Step

open Writer (Continues continues_print continues_newline continues_newlineIfNeeded continues_onNewline)

section Appending

variable {w : Writer} {step : Step} {frame : Frame}

theorem continues_start (framed : step.frame? w = some frame) : w.Continues frame.start := by
  cases step <;> cases framed
  · exact .refl w
  · exact .refl w
  all_goals exact w.continues_print _

theorem continues_finish (framed : step.frame? w = some frame) (inner : Writer) :
    inner.Continues (frame.finish inner) := by
  cases step <;> cases framed
  · exact .refl inner
  · exact .refl inner
  all_goals exact continues_onNewline (inner.leave w.scopes.length) _

theorem continues_change {change : Writer → Writer} (plain : step.change? = some change) (w : Writer) :
    w.Continues (change w) := by
  cases step <;> cases plain
  · exact w.continues_print _
  · exact w.continues_newline
  · exact w.continues_newlineIfNeeded
  · exact w.continues_onNewline _
  all_goals exact .refl w

theorem composes_continues : Composes Continues := ⟨.refl, .trans⟩

theorem respects_continues (w : Writer) (step : Step) : step.Respects Continues w where
  change _ plain := continues_change plain w
  frame _ framed inner more := ((continues_start framed).trans more).trans (continues_finish framed inner)

theorem continues_run (w : Writer) (step : Step) : w.Continues (run w step).writer :=
  composes_continues.run w step fun event _ => respects_continues event.before event.step

theorem continues_runAll (w : Writer) (steps : List Step) : w.Continues (runAll w steps).writer :=
  composes_continues.runAll w steps fun event _ => respects_continues event.before event.step

structure Grows (first : Writer) (events : List Event) (last : Writer) : Prop where
  own : ∀ event ∈ events, event.before.Continues event.outcome.writer
  first : ∀ event ∈ events, first.Continues event.outcome.writer
  next : events.Pairwise fun earlier later => earlier.outcome.writer.Continues later.outcome.writer
  last : ∀ event ∈ events, event.outcome.writer.Continues last

theorem grows_single {first : Writer} {event : Event} (own : event.before.Continues event.outcome.writer)
    (more : first.Continues event.outcome.writer) : Grows first [event] event.outcome.writer where
  own := by simpa using own
  first := by simpa using more
  next := List.pairwise_singleton _ _
  last := by simpa using Continues.refl event.outcome.writer

theorem Grows.append {first start middle final : Writer} {events others : List Event}
    (former : Grows start events middle) (latter : Grows middle others final) (before : first.Continues start)
    (between : start.Continues middle) (behind : middle.Continues final) :
    Grows first (events ++ others) final where
  own := List.forall_mem_append.mpr ⟨former.own, latter.own⟩
  first := by
    rw [List.forall_mem_append]
    refine ⟨fun event member => before.trans (former.first event member), ?_⟩
    exact fun event member => (before.trans between).trans (latter.first event member)
  next := by
    rw [List.pairwise_append]
    refine ⟨former.next, latter.next, ?_⟩
    intro earlier left later right
    exact (former.last earlier left).trans (latter.first later right)
  last := List.forall_mem_append.mpr ⟨fun event member => (former.last event member).trans behind, latter.last⟩

theorem inductive_grows :
    Inductive (fun w step => Grows w (trace w step) (run w step).writer)
      (fun w steps => Grows w (traceAll w steps) (runAll w steps).writer) where
  change w step change plain := by
    rw [trace_of_change plain]
    exact grows_single (continues_run w step) (continues_run w step)
  frame w step frame framed inside := by
    have behind : (runAll frame.start frame.body).writer.Continues (run w step).writer := by
      rw [run_of_frame framed]
      exact continues_finish framed _
    rw [trace_of_frame framed]
    exact inside.append (grows_single (continues_run w step) behind) (continues_start framed)
      (continues_runAll _ _) behind
  attempt w body inside := by
    rw [trace_attempt, run]
    exact inside.append (grows_single (continues_runAll w body) (.refl _)) (.refl w) (continues_runAll w body) (.refl _)
  fail w message := by
    rw [trace_fail, run]
    exact grows_single (.refl w) (.refl w)
  nil w := by
    rw [traceAll, runAll]
    exact ⟨by simp, by simp, List.Pairwise.nil, by simp⟩
  failed w step rest failed own := by
    rw [traceAll_of_failed failed, runAll_of_failed failed]
    exact own
  done w step rest done own onward := by
    rw [traceAll_of_done done, runAll_of_done done]
    exact own.append onward (.refl w) (continues_run w step) (continues_runAll _ rest)

end Appending

section LineFeed

def texts : Step → List String
  | .print text | .onNewline text => [text]
  | .block _ => [" \x7b", "\x7d"]
  | .blockWith opening closing _ => [opening, closing]
  | _ => []

def StartsWithFeed (text : String) : Prop := text.toList.head? = some '\n'

instance (text : String) : Decidable (StartsWithFeed text) :=
  inferInstanceAs (Decidable (text.toList.head? = some '\n'))

def FeedsFirst (whole text : String) : Prop := StartsWithFeed text ∧ text.toList <+: whole.toList

/-- More is written, and as far as it is in `whole`, no line feed comes first if none was first. -/
def StaysClear (whole : String) (w after : Writer) : Prop :=
  w.Continues after ∧
    (after.output.toList <+: whole.toList → ¬ StartsWithFeed w.output → ¬ StartsWithFeed after.output)

variable {whole : String} {w after : Writer}

theorem composes_staysClear : Composes (StaysClear whole) where
  refl w := ⟨.refl w, fun _ => id⟩
  trans := by
    intro first second third ⟨more, clear⟩ ⟨further, clearFurther⟩
    refine ⟨more.trans further, fun shown start => ?_⟩
    exact clearFurther shown (clear (List.IsPrefix.trans further shown) start)

theorem staysClear_of_output_eq (same : after.output = w.output) : StaysClear whole w after := by
  unfold StaysClear Continues
  rw [same]
  exact ⟨List.prefix_rfl, fun _ => id⟩

/-- What is printed behind a text does not change how it starts. -/
theorem staysClear_print {text : String} (blameless : w.output = "" → ¬ FeedsFirst whole text) :
    StaysClear whole w (w.print text) := by
  refine ⟨continues_print w text, fun shown start feed => ?_⟩
  by_cases empty : w.output = ""
  · have only : (w.print text).output = text := by simp [Writer.print, empty]
    rw [only] at shown feed
    exact blameless empty ⟨feed, shown⟩
  · obtain ⟨first, rest, filled⟩ := List.exists_cons_of_ne_nil (mt String.toList_eq_nil_iff.mp empty)
    rw [StartsWithFeed, Writer.print, String.toList_append, filled, List.cons_append, List.head?_cons] at feed
    rw [StartsWithFeed, filled, List.head?_cons] at start
    exact start feed

theorem staysClear_newline : StaysClear whole w w.newline := by
  unfold Writer.newline
  split
  · exact composes_staysClear.refl w
  · rename_i filled
    have blameless : w.output = "" → ¬ FeedsFirst whole "\n" := by
      intro empty
      simp [empty] at filled
    exact staysClear_print blameless

theorem staysClear_newlineIfNeeded : StaysClear whole w w.newlineIfNeeded := by
  unfold Writer.newlineIfNeeded
  split
  · exact composes_staysClear.refl w
  · exact staysClear_newline

theorem not_startsWithFeed_spaces (count : Nat) : ¬ StartsWithFeed (spaces count) := by
  unfold StartsWithFeed spaces
  rw [String.toList_ofList]
  cases count with
  | zero => simp
  | succ count => simp [List.replicate_succ]

theorem staysClear_onNewline {text : String} (blameless : w.output = "" → ¬ FeedsFirst whole text) :
    StaysClear whole w (w.onNewline text) := by
  unfold Writer.onNewline
  split
  · exact composes_staysClear.refl w
  · have indented : StaysClear whole w (w.newline.print (spaces (2 * w.level))) :=
      composes_staysClear.trans staysClear_newline
        (staysClear_print fun _ supplied => not_startsWithFeed_spaces _ supplied.1)
    refine composes_staysClear.trans indented (staysClear_print fun empty => blameless ?_)
    exact Decidable.byContradiction fun started => Writer.output_ne_of_continues started indented.1 empty

section Frame

variable {step : Step} {frame : Frame} (framed : step.frame? w = some frame)
  (blameless : w.output = "" → ∀ text ∈ step.texts, ¬ FeedsFirst whole text)

include framed blameless

theorem staysClear_start : StaysClear whole w frame.start := by
  cases step <;> cases framed
  · exact staysClear_of_output_eq rfl
  · exact staysClear_of_output_eq rfl
  all_goals exact staysClear_print fun empty => blameless empty _ List.mem_cons_self

theorem staysClear_finish {inner : Writer} (more : w.Continues inner) :
    StaysClear whole inner (frame.finish inner) := by
  -- if nothing is written behind the body, nothing was in front of it
  have early : inner.output = "" → w.output = "" := fun empty =>
    Decidable.byContradiction fun started => Writer.output_ne_of_continues started more empty
  have left : StaysClear whole inner (inner.leave w.scopes.length) := staysClear_of_output_eq rfl
  cases step <;> cases framed
  · exact staysClear_of_output_eq rfl
  · exact left
  all_goals
    refine composes_staysClear.trans left (staysClear_onNewline fun empty => ?_)
    exact blameless (early empty) _ (List.mem_cons_of_mem _ List.mem_cons_self)

end Frame

theorem respects_staysClear {step : Step}
    (blameless : w.output = "" → ∀ text ∈ step.texts, ¬ FeedsFirst whole text) :
    step.Respects (StaysClear whole) w where
  change := by
    intro change plain
    cases step <;> cases plain
    · exact staysClear_print fun empty => blameless empty _ List.mem_cons_self
    · exact staysClear_newline
    · exact staysClear_newlineIfNeeded
    · exact staysClear_onNewline fun empty => blameless empty _ List.mem_cons_self
    all_goals exact staysClear_of_output_eq rfl
  frame := by
    intro frame framed inner inside
    have start := staysClear_start framed blameless
    have body := composes_staysClear.trans start inside
    exact composes_staysClear.trans body (staysClear_finish framed blameless body.1)

/-- If a line feed comes first in the end, it was first at the start, or an instruction printed a text
    that starts with it while nothing was written. -/
theorem exists_feedsFirst {program : List Step} (feed : StartsWithFeed (runAll w program).writer.output) :
    StartsWithFeed w.output ∨
      ∃ event ∈ traceAll w program, event.before.output = "" ∧
        ∃ text ∈ event.step.texts, FeedsFirst (runAll w program).writer.output text := by
  apply Classical.byContradiction
  intro neither
  rw [not_or] at neither
  obtain ⟨clear, unsupplied⟩ := neither
  have stays : StaysClear (runAll w program).writer.output w (runAll w program).writer := by
    apply composes_staysClear.runAll
    intro event member
    apply respects_staysClear
    intro empty text printed supplied
    exact unsupplied ⟨event, member, empty, text, printed, supplied⟩
  exact stays.2 List.prefix_rfl clear feed

end LineFeed

/-- A block closes on a line of its own, on the level where it was opened, whatever its body did. -/
theorem output_blockWith {w : Writer} {opening closing : String} (body : List Step) (filled : closing ≠ "")
    (started : w.output ++ opening ≠ "") :
    ∃ appended, (runAll (w.print opening).enter body).writer.output = w.output ++ opening ++ appended ∧
      (run w (.blockWith opening closing body)).writer.output =
        w.output ++ opening ++ appended ++ "\n" ++ spaces (2 * w.level) ++ closing := by
  have more : (w.print opening).Continues (runAll (w.print opening).enter body).writer :=
    continues_runAll (w.print opening).enter body
  have level : (runAll (w.print opening).enter body).writer.level = w.level + 1 :=
    level_runAll (w.print opening).enter body
  have last : (run w (.blockWith opening closing body)).writer =
      ((runAll (w.print opening).enter body).writer.leave w.scopes.length).onNewline closing := by
    rw [run]
    rfl
  rw [last]
  generalize (runAll (w.print opening).enter body).writer = inner at more level
  have begun : inner.output ≠ "" := Writer.output_ne_of_continues (w := w.print opening) started more
  obtain ⟨appended, written⟩ := more
  have inside : inner.output = w.output ++ opening ++ String.ofList appended := by
    apply String.toList_inj.mp
    rw [← written, String.toList_append, String.toList_ofList]
    rfl
  obtain ⟨closed, _⟩ := Writer.output_onNewline (w := inner.leave w.scopes.length) begun filled
  have restored : (inner.leave w.scopes.length).level = w.level := Nat.sub_eq_of_eq_add level
  rw [restored] at closed
  exact ⟨String.ofList appended, inside, inside ▸ closed⟩

end Step

open Step

/-- The texts that show while a program runs: at the start, behind each instruction as it comes to its
    end, and at the end. -/
def shownTexts (w : Writer) (program : List Step) : List String :=
  w.output :: (traceAll w program).map (·.outcome.writer.output) ++ [(runAll w program).writer.output]

/-- Programs only add to the text. A line feed comes first only if it was first at the start or starts a
    text that the program printed. A block that is closed by a text has behind its body, whether that
    failed or not, a line with this text that is indented as it was where the block was opened. -/
theorem layout_of_programs (w : Writer) (program : List Step) :
    (∀ event ∈ traceAll w program, event.before.output.toList <+: event.outcome.writer.output.toList) ∧
    (shownTexts w program).Pairwise (fun earlier later => earlier.toList <+: later.toList) ∧
    (StartsWithFeed (runAll w program).writer.output → StartsWithFeed w.output ∨
      ∃ event ∈ traceAll w program, event.before.output = "" ∧
        ∃ text ∈ event.step.texts, FeedsFirst (runAll w program).writer.output text) ∧
    ∀ opening closing body, closing ≠ "" → w.output ++ opening ≠ "" →
      ∃ appended, (runAll (w.print opening).enter body).writer.output = w.output ++ opening ++ appended ∧
        (run w (.blockWith opening closing body)).writer.output =
          w.output ++ opening ++ appended ++ "\n" ++ spaces (2 * w.level) ++ closing := by
  have grows := inductive_grows.steps w program
  refine ⟨grows.own, ?_, exists_feedsFirst, fun _ _ body => output_blockWith body⟩
  have whole : w.Continues (runAll w program).writer := continues_runAll w program
  unfold shownTexts
  rw [List.cons_append, List.pairwise_cons, List.pairwise_append, List.pairwise_map]
  refine ⟨?_, grows.next, List.pairwise_singleton _ _, ?_⟩
  · intro text shown
    rcases List.mem_append.mp shown with within | last
    · obtain ⟨event, member, rfl⟩ := List.mem_map.mp within
      exact grows.first event member
    · rw [List.mem_singleton.mp last]
      exact whole
  · intro text within last isLast
    obtain ⟨event, member, rfl⟩ := List.mem_map.mp within
    rw [List.mem_singleton.mp isLast]
    exact grows.last event member

namespace Outline

def start : Writer := ⟨"x =", [], 1, false⟩

def body : List Step :=
  [.onNewline "1 |", .block [.newlineIfNeeded, .onNewline "2", .fail "stop"], .print "never"]

def feeding : List Step := [.newline, .withIndent [.pushScope "A"], .print "\nfirst"]

end Outline

theorem layout_of_programs_outline :
    (run Outline.start (.blockWith " (" ")" Outline.body)).writer.output =
        "x = (\n    1 | \x7b\n      2\n    \x7d\n  )" ∧
      (run Outline.start (.blockWith " (" ")" Outline.body)).failure = some "stop" ∧
      ∃ event ∈ traceAll {} Outline.feeding, event.before.output = "" ∧
        ∃ text ∈ event.step.texts, FeedsFirst "\nfirst" text := by
  obtain ⟨_, _, _, closed⟩ := layout_of_programs Outline.start []
  obtain ⟨_, _, supplied, _⟩ := layout_of_programs {} Outline.feeding
  obtain ⟨appended, inside, whole⟩ := closed " (" ")" Outline.body (by decide) (by decide)
  have inner : (runAll (Outline.start.print " (").enter Outline.body).writer.output =
      "x = (\n    1 | \x7b\n      2\n    \x7d" := by decide
  refine ⟨?_, by decide, (supplied (by decide)).resolve_left (by decide)⟩
  rw [whole, ← inside, inner]
  decide

end QueryTypes
