import QueryTypes.Declaration.Flow
import QueryTypes.Declaration.Swift
import QueryTypes.Declaration.TypeScript

namespace QueryTypes

def Text.isComment (line : List Char) : Bool := ['/', '/'].isPrefixOf (trimStart line)

def Text.codeLines (text : List Char) : List (List Char) := (text.splitOn '\n').filter (!isComment ·)

def codeLines (source : String) : List (List Char) := Text.codeLines source.toList

/-- The lines of a comment that stand behind its first line and are no comments themselves. -/
def strayLines (comment : String) : List (List Char) :=
  (comment.toList.splitOn '\n').tail.filter (!Text.isComment ·)

def strayCount (comments : List String) : Nat := (comments.flatMap strayLines).length

theorem strayCount_cons (comment : String) (comments : List String) :
    strayCount (comment :: comments) = (strayLines comment).length + strayCount comments := by
  simp [strayCount]

theorem strayCount_append (comments others : List String) :
    strayCount (comments ++ others) = strayCount comments + strayCount others := by
  simp [strayCount]

theorem strayCount_eq_zero_iff {comments : List String} :
    strayCount comments = 0 ↔ ∀ comment ∈ comments, strayLines comment = [] := by
  rw [strayCount, List.length_eq_zero_iff, List.flatMap_eq_nil_iff]

namespace Text

theorem codeLines_append (before after : List Char) :
    codeLines (before ++ '\n' :: after) = codeLines before ++ codeLines after := by
  simp only [codeLines, List.splitOn_append_cons_self, List.filter_append]

theorem splitOn_append_of_not_mem {front : List Char} (noFeed : '\n' ∉ front) (text : List Char) :
    (front ++ text).splitOn '\n' = (text.splitOn '\n').modifyHead (front ++ ·) := by
  induction front with
  | nil => cases found : text.splitOn '\n' <;> simp [found]
  | cons c front ih =>
    rw [List.mem_cons, not_or] at noFeed
    have other : (c == '\n') = false := by simpa using Ne.symm noFeed.1
    rw [List.cons_append, List.splitOn_cons_eq_if_modifyHead, other, ih noFeed.2]
    cases text.splitOn '\n' <;> rfl

theorem isComment_append {blanks : List Char} (blank : ∀ c ∈ blanks, isBlank c = true) (text : List Char) :
    isComment (blanks ++ '/' :: '/' :: text) = true := by
  have trimmed : trimStart (blanks ++ '/' :: '/' :: text) = '/' :: '/' :: text := by
    unfold trimStart
    rw [List.dropWhile_append_of_pos blank]
    rfl
  simp [isComment, trimmed]

/-- Of a comment behind blanks, the first line does not count. -/
theorem codeLines_comment (indent : Nat) {mark : List Char} (noFeed : '\n' ∉ mark) (comment : String) :
    codeLines ((spaces indent).toList ++ '/' :: '/' :: mark ++ comment.toList) = strayLines comment := by
  have blank : ∀ c ∈ (spaces indent).toList, isBlank c = true ∧ c ≠ '\n' := by
    intro c member
    rw [spaces, String.toList_ofList] at member
    rw [List.eq_of_mem_replicate member]
    decide
  have front : '\n' ∉ (spaces indent).toList ++ '/' :: '/' :: mark := by
    intro member
    rcases List.mem_append.mp member with member | member
    · exact (blank _ member).2 rfl
    · simp [noFeed] at member
  rw [codeLines, splitOn_append_of_not_mem front, strayLines]
  cases found : comment.toList.splitOn '\n' with
  | nil => exact absurd found (List.splitOn_ne_nil '\n' _)
  | cons first rest =>
    have leads := isComment_append (fun c member => (blank c member).1) (mark ++ first)
    rw [List.modifyHead_cons, List.append_assoc, List.filter_cons_of_neg (by simpa using leads), List.tail_cons]

end Text

/-- One list holds the elements of another one in their order, and so many more. -/
structure Extends {α : Type} (more : Nat) (longer shorter : List α) : Prop where
  sublist : shorter.Sublist longer
  length : longer.length = shorter.length + more

namespace Extends

variable {α : Type} {longer shorter : List α} {more : Nat}

theorem refl (xs : List α) : Extends 0 xs xs := ⟨.refl xs, rfl⟩

theorem append_right (held : Extends more longer shorter) (rest : List α) :
    Extends more (longer ++ rest) (shorter ++ rest) := by
  refine ⟨held.sublist.append_right rest, ?_⟩
  rw [List.length_append, List.length_append, held.length]
  omega

theorem append_left (held : Extends more longer shorter) (rest : List α) :
    Extends (more + rest.length) (longer ++ rest) shorter := by
  refine ⟨held.sublist.trans (List.sublist_append_left longer rest), ?_⟩
  rw [List.length_append, held.length]
  omega

theorem eq_iff (held : Extends more longer shorter) : longer = shorter ↔ more = 0 := by
  have length := held.length
  constructor
  · intro same
    rw [same] at length
    omega
  · intro none
    exact (held.sublist.eq_of_length (by omega)).symm

end Extends

namespace Writer

/-- Two writers are at the same place, and one has so many lines of code more. -/
structure RunsAhead (more : Nat) (w plain : Writer) : Prop where
  level : w.level = plain.level
  begun : w.output ≠ "" ∧ plain.output ≠ ""
  code : Extends more (codeLines w.output) (codeLines plain.output)

structure Shows (more : Nat) (w plain : Writer) : Prop where
  level : w.level = plain.level
  atStart : w.atStart = plain.atStart
  code : ∃ before after last, w.output.toList = before ++ '\n' :: last ∧
    plain.output.toList = after ++ '\n' :: last ∧ Extends more (Text.codeLines before) (Text.codeLines after)

variable {more : Nat} {w plain : Writer}

theorem ne_empty_of_toList {text : String} {before last : List Char} (split : text.toList = before ++ '\n' :: last) :
    text ≠ "" := by
  rintro rfl
  simp at split

theorem Shows.runsAhead (shows : Shows more w plain) : RunsAhead more w plain := by
  obtain ⟨before, after, last, written, plainly, code⟩ := shows.code
  refine ⟨shows.level, ⟨ne_empty_of_toList written, ne_empty_of_toList plainly⟩, ?_⟩
  rw [codeLines, codeLines, written, plainly, Text.codeLines_append, Text.codeLines_append]
  exact code.append_right _

theorem newline_of_ne_empty (begun : w.output ≠ "") :
    w.newline = { w with output := w.output ++ "\n", atStart := false } := by
  unfold newline
  rw [if_neg (by simpa [String.isEmpty_iff] using begun)]

theorem RunsAhead.refl (begun : w.output ≠ "") : RunsAhead 0 w w := ⟨rfl, ⟨begun, begun⟩, .refl _⟩

theorem RunsAhead.newline (ahead : RunsAhead more w plain) : Shows more w.newline plain.newline := by
  rw [newline_of_ne_empty ahead.begun.1, newline_of_ne_empty ahead.begun.2]
  refine ⟨ahead.level, rfl, w.output.toList, plain.output.toList, [], ?_, ?_, ahead.code⟩
  · simp
  · simp

theorem Shows.print (shows : Shows more w plain) (text : String) : Shows more (w.print text) (plain.print text) := by
  obtain ⟨before, after, last, written, plainly, code⟩ := shows.code
  refine ⟨shows.level, shows.atStart, before, after, last ++ text.toList, ?_, ?_, code⟩
  · simp [Writer.print, written]
  · simp [Writer.print, plainly]

theorem RunsAhead.onNewline (ahead : RunsAhead more w plain) {text : String} (visible : text ≠ "") :
    Shows more (w.onNewline text) (plain.onNewline text) := by
  have shown : text.isEmpty = false := by simpa [String.isEmpty_iff] using visible
  simp only [Writer.onNewline, shown, Bool.false_eq_true, if_false, ahead.level]
  exact (ahead.newline.print _).print _

def IsMark (mark : String) : Prop := ∃ rest, mark.toList = '/' :: '/' :: rest ∧ '\n' ∉ rest

theorem IsMark.isEmpty_append {mark : String} (isMark : IsMark mark) (comment : String) :
    (mark ++ comment).isEmpty = false := by
  obtain ⟨rest, slashes, _⟩ := isMark
  rw [String.isEmpty_eq_false_iff]
  intro empty
  have characters := congrArg String.toList empty
  simp [slashes] at characters

/-- A comment on a new line adds the lines that leave it. -/
theorem RunsAhead.comment (ahead : RunsAhead more w plain) {mark : String} (isMark : IsMark mark) (indent : Nat)
    (comment : String) :
    RunsAhead (more + (strayLines comment).length) ((w.newline.print (spaces indent)).print (mark ++ comment)) plain := by
  obtain ⟨rest, slashes, noFeed⟩ := isMark
  have text : ((w.newline.print (spaces indent)).print (mark ++ comment)).output.toList =
      w.output.toList ++ '\n' :: ((spaces indent).toList ++ '/' :: '/' :: rest ++ comment.toList) := by
    simp [newline_of_ne_empty ahead.begun.1, Writer.print, slashes]
  refine ⟨?_, ⟨ne_empty_of_toList text, ahead.begun.2⟩, ?_⟩
  · rw [newline_of_ne_empty ahead.begun.1]
    exact ahead.level
  · have added := ahead.code.append_left (strayLines comment)
    rw [codeLines, text, Text.codeLines_append, Text.codeLines_comment _ noFeed]
    exact added

theorem RunsAhead.onNewline_comment (ahead : RunsAhead more w plain) {mark : String} (isMark : IsMark mark)
    (comment : String) :
    RunsAhead (more + (strayLines comment).length) (w.onNewline (mark ++ comment)) plain := by
  simp only [Writer.onNewline, isMark.isEmpty_append, Bool.false_eq_true, if_false]
  exact ahead.comment isMark _ comment

/-- From the same line on one writes what the other one writes, and so many lines more. -/
def Aligned (count : Nat) (write writePlain : Writer → Writer) : Prop :=
  ∀ more w plain, Shows more w plain → Shows (more + count) (write w) (writePlain plain)

def Resumes (count : Nat) (write writePlain : Writer → Writer) : Prop :=
  ∀ more w plain, RunsAhead more w plain → Shows (more + count) (write w) (writePlain plain)

variable {count others : Nat} {write writePlain next nextPlain : Writer → Writer}

theorem Resumes.aligned (resumes : Resumes count write writePlain) : Aligned count write writePlain :=
  fun more w plain shows => resumes more w plain shows.runsAhead

theorem Aligned.andThen (first : Aligned count write writePlain) (second : Aligned others next nextPlain) :
    Aligned (count + others) (fun w => next (write w)) (fun w => nextPlain (writePlain w)) := by
  intro more w plain shows
  rw [← Nat.add_assoc]
  exact second _ _ _ (first more w plain shows)

theorem Resumes.andThen (first : Resumes count write writePlain) (second : Aligned others next nextPlain) :
    Resumes (count + others) (fun w => next (write w)) (fun w => nextPlain (writePlain w)) := by
  intro more w plain ahead
  rw [← Nat.add_assoc]
  exact second _ _ _ (first more w plain ahead)

theorem Aligned.of_eq (aligned : Aligned count write writePlain) (same : count = others) :
    Aligned others write writePlain := same ▸ aligned

theorem aligned_self : Aligned 0 (fun w => w) (fun w => w) := fun _ _ _ shows => shows

theorem aligned_print (text : String) : Aligned 0 (·.print text) (·.print text) :=
  fun _ _ _ shows => shows.print text

theorem aligned_newlineIfNeeded : Aligned 0 newlineIfNeeded newlineIfNeeded := by
  intro more w plain shows
  unfold newlineIfNeeded
  rw [shows.atStart]
  split
  · exact shows
  · exact shows.runsAhead.newline

theorem resumes_onNewline {text : String} (visible : text ≠ "") : Resumes 0 (·.onNewline text) (·.onNewline text) :=
  fun _ _ _ ahead => ahead.onNewline visible

theorem aligned_onNewline (text : String) : Aligned 0 (·.onNewline text) (·.onNewline text) := by
  by_cases visible : text = ""
  · subst visible
    exact aligned_self
  · exact (resumes_onNewline visible).aligned

/-- Comments in front of a new line add the lines that leave them. -/
theorem Resumes.commented (resumes : Resumes count write writePlain) {mark : String} (isMark : IsMark mark)
    (comments : List String) :
    Resumes (strayCount comments + count) (fun w => write (w.onNewlines (comments.map (mark ++ ·)))) writePlain := by
  induction comments with
  | nil =>
    rw [show strayCount [] + count = count from Nat.zero_add count]
    exact resumes
  | cons comment rest ih =>
    intro more w plain ahead
    have shows := ih _ _ _ (ahead.onNewline_comment isMark comment)
    rw [strayCount_cons, ← Nat.add_assoc, ← Nat.add_assoc]
    rw [← Nat.add_assoc] at shows
    exact shows

section Each

variable {α β : Type}

theorem Aligned.each (xs : List α) {step : Writer → α → Writer} {stepPlain : Writer → β → Writer} {strip : α → β}
    {comments : α → List String}
    (each : ∀ x ∈ xs, Aligned (strayCount (comments x)) (step · x) (stepPlain · (strip x))) :
    Aligned (strayCount (xs.flatMap comments)) (·.each xs step) (·.each (xs.map strip) stepPlain) := by
  induction xs with
  | nil => exact aligned_self
  | cons x xs ih =>
    rw [List.forall_mem_cons] at each
    rw [List.flatMap_cons, strayCount_append]
    exact each.1.andThen (ih each.2)

theorem aligned_each {step : Writer → α → Writer} (each : ∀ x, Aligned 0 (step · x) (step · x)) (xs : List α) :
    Aligned 0 (·.each xs step) (·.each xs step) := by
  induction xs with
  | nil => exact aligned_self
  | cons x xs ih => exact (each x).andThen ih

theorem aligned_onNewlines (texts : List String) : Aligned 0 (·.onNewlines texts) (·.onNewlines texts) :=
  aligned_each aligned_onNewline texts

end Each

theorem Aligned.indented (inside : Aligned count write writePlain) :
    Aligned count (·.indented write) (·.indented writePlain) := by
  intro more w plain shows
  have entered : Shows more w.enter plain.enter := ⟨congrArg (· + 1) shows.level, rfl, shows.code⟩
  have done := inside more w.enter plain.enter entered
  exact ⟨congrArg (· - 1) done.level, done.atStart, done.code⟩

theorem Aligned.enclosed (inside : Aligned count write writePlain) (opening closing : String) :
    Aligned count (·.enclosed opening closing write) (·.enclosed opening closing writePlain) := by
  have whole := ((aligned_print opening).andThen inside.indented).andThen (aligned_onNewline closing)
  rw [Nat.zero_add, Nat.add_zero] at whole
  exact whole

theorem Aligned.block (inside : Aligned count write writePlain) :
    Aligned count (·.block write) (·.block writePlain) :=
  inside.enclosed _ _

/-- After the last line, the texts of two writers differ in the lines that left the comments. -/
theorem Aligned.extends_output (aligned : Aligned count write writePlain) (shows : Shows 0 w plain) :
    Extends count (codeLines (write w).newline.output) (codeLines (writePlain plain).newline.output) := by
  have done := (aligned 0 w plain shows).runsAhead.newline.runsAhead.code
  rw [Nat.zero_add] at done
  exact done

end Writer

end QueryTypes
