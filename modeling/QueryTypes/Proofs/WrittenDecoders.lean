import QueryTypes.Proofs.CodeLines
import QueryTypes.Proofs.CompiledNames
import QueryTypes.Proofs.DescriptionLines
import QueryTypes.Proofs.EmbeddedOperations
import QueryTypes.Proofs.Unwinding

namespace QueryTypes

namespace Writer

def linesText (lines : List (Nat × String)) : List Char :=
  lines.flatMap fun line => '\n' :: ((spaces (2 * line.1)).toList ++ line.2.toList)

theorem linesText_append (lines others : List (Nat × String)) :
    linesText (lines ++ others) = linesText lines ++ linesText others := List.flatMap_append ..

/-- A writer is at the level of another one and has written these lines more. -/
structure AppendsLines (w : Writer) (lines : List (Nat × String)) (after : Writer) : Prop where
  output : after.output.toList = w.output.toList ++ linesText lines
  level : after.level = w.level

variable {w middle after : Writer} {lines others : List (Nat × String)} {text : String}

theorem AppendsLines.refl (w : Writer) : w.AppendsLines [] w := ⟨(List.append_nil _).symm, rfl⟩

theorem AppendsLines.trans (first : w.AppendsLines lines middle) (second : middle.AppendsLines others after) :
    w.AppendsLines (lines ++ others) after := by
  refine ⟨?_, second.level.trans first.level⟩
  rw [second.output, first.output, linesText_append, List.append_assoc]

theorem AppendsLines.started (appended : w.AppendsLines lines after) (started : w.output ≠ "") : after.output ≠ "" := by
  intro none
  have output := appended.output
  rw [none] at output
  exact started (String.toList_eq_nil_iff.mp (List.append_eq_nil_iff.mp output.symm).1)

theorem appendsLines_onNewline (started : w.output ≠ "") (filled : text ≠ "") :
    w.AppendsLines [(w.level, text)] (w.onNewline text) := by
  obtain ⟨output, level, _⟩ := output_onNewline started filled
  refine ⟨?_, level⟩
  rw [output]
  simp [linesText]

theorem appendsLines_onNewlines (started : w.output ≠ "") {texts : List String} (filled : ∀ text ∈ texts, text ≠ "") :
    w.AppendsLines (texts.map fun text => (w.level, text)) (w.onNewlines texts) ∧
      (texts ≠ [] → (w.onNewlines texts).atStart = false) := by
  unfold onNewlines each
  induction texts generalizing w with
  | nil => exact ⟨.refl w, fun some => absurd rfl some⟩
  | cons text rest ih =>
    rw [List.forall_mem_cons] at filled
    have first := appendsLines_onNewline started filled.1
    obtain ⟨others, begun⟩ := ih (first.started started) filled.2
    rw [first.level] at others
    refine ⟨first.trans others, fun _ => ?_⟩
    cases rest with
    | nil => exact (output_onNewline started filled.1).2.2
    | cons second rest => exact begun (List.cons_ne_nil _ _)

theorem appendsLines_newlineIfNeeded (started : w.output ≠ "") (begun : w.atStart = false) :
    w.AppendsLines [(0, "")] w.newlineIfNeeded := by
  have notEmpty : w.output.isEmpty = false := by simpa using started
  constructor
  · simp [newlineIfNeeded, newline, begun, notEmpty, linesText, spaces]
  · exact w.level_newlineIfNeeded

theorem output_newlineIfNeeded (w : Writer) : w.newlineIfNeeded.output.toList = w.output.toList ∨
    w.newlineIfNeeded.output.toList = w.output.toList ++ ['\n'] := by
  unfold newlineIfNeeded newline
  split
  · exact .inl rfl
  · split
    · exact .inl rfl
    · exact .inr (by simp)

theorem appendsLines_each {α : Type} {write : Writer → α → Writer} {shown : α → List (Nat × String)} {level : Nat}
    (step : ∀ w x, Writer.output w ≠ "" → w.level = level → w.AppendsLines (shown x) (write w x)) (xs : List α)
    (started : w.output ≠ "") (placed : w.level = level) : w.AppendsLines (xs.flatMap shown) (w.each xs write) := by
  unfold each
  induction xs generalizing w with
  | nil => exact .refl w
  | cons x xs ih =>
    have first := step w x started placed
    exact first.trans (ih (first.started started) (first.level.trans placed))

theorem appendsLines_indented {body : Writer → Writer} (inside : w.enter.AppendsLines lines (body w.enter)) :
    w.AppendsLines lines (w.indented body) := by
  refine ⟨inside.output, ?_⟩
  change (body w.enter).level - 1 = w.level
  rw [inside.level]
  rfl

theorem appendsLines_heading (started : w.output ≠ "") (filled : text ≠ "") :
    w.AppendsLines [(w.level, text ++ " \x7b")] ((w.onNewline text).print " \x7b") := by
  have heading := appendsLines_onNewline started filled
  refine ⟨?_, heading.level⟩
  simp [print, heading.output, linesText]

theorem appendsLines_block (started : w.output ≠ "") (filled : text ≠ "") {body : Writer → Writer}
    (inside : ∀ v, Writer.output v ≠ "" → v.level = w.level + 1 → v.AppendsLines lines (body v)) :
    w.AppendsLines ((w.level, text ++ " \x7b") :: lines ++ [(w.level, "\x7d")]) ((w.onNewline text).block body) := by
  have heading := appendsLines_heading started filled
  have body := inside ((w.onNewline text).print " \x7b").enter (heading.started started)
    (congrArg (· + 1) heading.level)
  have both := heading.trans (appendsLines_indented body)
  have closed := appendsLines_onNewline (both.started started) (show "\x7d" ≠ "" by decide)
  rw [both.level] at closed
  exact both.trans closed

end Writer

namespace Text

def unindented (text : List Char) : List (List Char) := (text.splitOn '\n').map (·.dropWhile (· == ' '))

def everySecond : List (List Char) → List (List Char)
  | _ :: second :: rest => second :: everySecond rest
  | _ => []

def quoted (text : List Char) : List (List Char) := everySecond (text.splitOn '"')

def IsLine (text : List Char) : Prop := '\n' ∉ text ∧ text.head? ≠ some ' '

instance (text : List Char) : Decidable (IsLine text) := inferInstanceAs (Decidable (_ ∧ _))

theorem IsLine.dropWhile_spaces {text : List Char} (isLine : IsLine text) (indent : Nat) :
    ((spaces indent).toList ++ text).dropWhile (· == ' ') = text := by
  have blank : ∀ c ∈ (spaces indent).toList, (c == ' ') = true := by
    intro c member
    rw [spaces, String.toList_ofList] at member
    rw [List.eq_of_mem_replicate member]
    rfl
  rw [List.dropWhile_append_of_pos blank]
  cases text with
  | nil => rfl
  | cons c rest =>
    rw [List.dropWhile_cons_of_neg]
    simpa using isLine.2

theorem unindented_linesText {lines : List (Nat × String)} (single : ∀ line ∈ lines, IsLine line.2.toList)
    (rest : List Char) :
    unindented (Writer.linesText lines ++ '\n' :: rest) =
      [] :: (lines.map (fun line => line.2.toList) ++ unindented rest) := by
  have split : (Writer.linesText lines ++ '\n' :: rest).splitOn '\n' =
      [] :: (lines.map (fun line => (spaces (2 * line.1)).toList ++ line.2.toList) ++ rest.splitOn '\n') := by
    induction lines with
    | nil =>
      change ([] ++ '\n' :: rest).splitOn '\n' = _
      rw [List.splitOn_append_cons_self]
      rfl
    | cons line lines ih =>
      rw [List.forall_mem_cons] at single
      have noFeed : '\n' ∉ (spaces (2 * line.1)).toList ++ line.2.toList := by
        simp [spaces, single.1.1]
      have text : Writer.linesText (line :: lines) ++ '\n' :: rest = [] ++ '\n' ::
          (((spaces (2 * line.1)).toList ++ line.2.toList) ++ (Writer.linesText lines ++ '\n' :: rest)) := by
        simp [Writer.linesText]
      rw [text, List.splitOn_append_cons_self, splitOn_append_of_not_mem noFeed, ih single.2]
      simp
  unfold unindented
  rw [split, List.map_cons, List.map_append, List.map_map]
  congr 2
  apply List.map_congr_left
  intro line member
  exact (single line member).dropWhile_spaces _

theorem quoted_append {front inside : List Char} (outer : '"' ∉ front) (inner : '"' ∉ inside) (rest : List Char) :
    quoted (front ++ '"' :: (inside ++ '"' :: rest)) = inside :: quoted rest := by
  unfold quoted
  rw [List.splitOn_append_cons_self, List.splitOn_append_cons_self, List.splitOn_eq_singleton outer,
    List.splitOn_eq_singleton inner]
  rfl

theorem quoted_of_not_mem {text : List Char} (none : '"' ∉ text) : quoted text = [] := by
  unfold quoted
  rw [List.splitOn_eq_singleton none]
  rfl

end Text

namespace Swift

def Arm.label (arm : Arm) : String :=
  arm.labels.elim "default:" fun labels => "case " ++ ", ".intercalate (labels.map fun l => "\"" ++ l ++ "\"") ++ ":"

def Variant.statement (variant : Variant) : String :=
  "self = ." ++ variant.caseName ++ "(try " ++ variant.structName ++ "(map: map))"

def switchHead : String := "switch typename \x7b"

def switchLines (level : Nat) (arms : List Arm) : List (Nat × String) :=
  arms.flatMap fun arm => [(level, arm.label), (level + 1, arm.variant.statement)]

/-- The lines of an enum that decodes itself by the type name, up to its switch. -/
def choiceFront (level : Nat) (name : String) (variants : List Variant) : List (Nat × String) :=
  (level, "public enum " ++ name ++ ": GraphQLMapConvertible" ++ " \x7b") ::
    variants.map (fun v => (level + 1, "case " ++ v.caseName ++ "(" ++ v.structName ++ ")")) ++
    [(0, ""), (level + 1, "public init(map: GraphQLMap) throws \x7b"),
      (level + 2, "let typename: String = try map.value(forKey: \"__typename\")")]

def choiceLines (level : Nat) (name : String) (variants : List Variant) : List (Nat × String) :=
  choiceFront level name variants ++ (level + 2, switchHead) :: (switchLines (level + 2) (arms variants) ++
    [(level + 2, "\x7d"), (level + 1, "\x7d")])

section Lines

variable {w : Writer}

theorem appendsLines_writeArm (started : w.output ≠ "") (arm : Arm) :
    w.AppendsLines [(w.level, arm.label), (w.level + 1, arm.variant.statement)] (writeArm w arm) := by
  have labelled : writeArm w arm = (w.onNewline arm.label).indented fun w => w.onNewline arm.variant.statement := by
    obtain ⟨labels, variant⟩ := arm
    cases labels <;> rfl
  have filled : arm.label ≠ "" := by
    obtain ⟨labels, variant⟩ := arm
    cases labels <;> simp [Arm.label]
  have first := Writer.appendsLines_onNewline started filled
  have inside := Writer.appendsLines_onNewline (w := (w.onNewline arm.label).enter) (first.started started)
    (show arm.variant.statement ≠ "" by simp [Variant.statement])
  rw [labelled]
  have level : (w.onNewline arm.label).enter.level = w.level + 1 := congrArg (· + 1) first.level
  rw [level] at inside
  exact first.trans (Writer.appendsLines_indented inside)

theorem appendsLines_writeSwitch (started : w.output ≠ "") (variants : List Variant) :
    w.AppendsLines ((w.level, "let typename: String = try map.value(forKey: \"__typename\")") :: (w.level, switchHead) ::
      switchLines w.level (arms variants) ++ [(w.level, "\x7d")]) (writeSwitch w variants) := by
  have typename := Writer.appendsLines_onNewline (w := w) started
    (show "let typename: String = try map.value(forKey: \"" ++ typenameField ++ "\")" ≠ "" by decide)
  have head := typename.trans (Writer.appendsLines_onNewline (typename.started started) (show switchHead ≠ "" by decide))
  have branch (v : Writer) (arm : Arm) (begun : v.output ≠ "") (placed : v.level = w.level) :
      v.AppendsLines [(w.level, arm.label), (w.level + 1, arm.variant.statement)] (writeArm v arm) :=
    placed ▸ appendsLines_writeArm begun arm
  have branches := Writer.appendsLines_each branch (arms variants) (head.started started) head.level
  have body := head.trans branches
  have closed := Writer.appendsLines_onNewline (body.started started) (show "\x7d" ≠ "" by decide)
  rw [body.level] at closed
  have whole := body.trans closed
  rw [typename.level] at whole
  exact whole

/-- An enum is written in its lines, and the types below it behind them. -/
theorem exists_lines_of_writeNested (started : w.output ≠ "") (name : String) {variants : List Variant}
    (filled : variants ≠ []) (inner : List Nested) :
    ∃ after, (writeNested w (.choice name variants inner)).output.toList = w.newlineIfNeeded.output.toList ++
      (Writer.linesText (choiceLines w.level name variants) ++ after) := by
  let head := "public enum " ++ name ++ ": GraphQLMapConvertible"
  let caseTexts := variants.map fun v => "case " ++ v.caseName ++ "(" ++ v.structName ++ ")"
  let opened := (w.newlineIfNeeded.onNewline head).print " \x7b"
  let decoder (w : Writer) : Writer :=
    ((w.onNewlines caseTexts).newlineIfNeeded.onNewline "public init(map: GraphQLMap) throws").block
      fun w => writeSwitch w variants
  have before := Writer.output_ne_of_continues started w.continues_newlineIfNeeded
  have heading : w.newlineIfNeeded.AppendsLines [(w.level, head ++ " \x7b")] opened := by
    rw [← w.level_newlineIfNeeded]
    exact Writer.appendsLines_heading before (by simp [head])
  have begun : opened.enter.output ≠ "" := heading.started before
  have level : opened.enter.level = w.level + 1 := congrArg (· + 1) (heading.level.trans w.level_newlineIfNeeded)
  have named : ∀ text ∈ caseTexts, text ≠ "" := by simp [caseTexts]
  obtain ⟨listed, atStart⟩ := Writer.appendsLines_onNewlines begun named
  have blank := Writer.appendsLines_newlineIfNeeded (listed.started begun) (atStart (by simpa [caseTexts] using filled))
  have cases := listed.trans blank
  have switch := Writer.appendsLines_block (cases.started begun) (show "public init(map: GraphQLMap) throws" ≠ "" by decide)
    fun v started placed => placed ▸ appendsLines_writeSwitch started variants
  have body := cases.trans switch
  -- the types below stand between the decoder and the end of the enum, so its own lines come first
  have closed : (decoder opened.enter).Continues (writeNested w (.choice name variants inner)) := by
    rw [writeNested]
    exact (continues_writeAll (decoder opened.enter) inner).trans
      (continues_block_of_body (fun w => writeAll (decoder w) inner) (w.newlineIfNeeded.onNewline head))
  obtain ⟨after, whole⟩ := closed
  refine ⟨after, ?_⟩
  have text : (decoder opened.enter).output.toList = w.newlineIfNeeded.output.toList ++
      Writer.linesText (choiceLines w.level name variants) := by
    rw [body.output, cases.level, level]
    change opened.output.toList ++ _ = _
    rw [heading.output, List.append_assoc, ← Writer.linesText_append]
    simp [choiceLines, choiceFront, head, caseTexts, Function.comp_def]
  rw [← whole, text, List.append_assoc]

end Lines

def IsQuotable (name : String) : Prop := '"' ∉ name.toList ∧ '\n' ∉ name.toList

theorem toUpper_ne {c d : Char} (ne : c ≠ d) (noLetter : d < 'A') : c.toUpper ≠ d := by
  rintro rfl
  unfold Char.toUpper at ne noLetter
  split at ne
  · rename_i lower
    rw [dif_pos lower, Char.lt_def] at noLetter
    grind
  · exact ne rfl

theorem not_mem_upperFirst {name : String} {c : Char} (absent : c ∉ name.toList) (noLetter : c < 'A') :
    c ∉ (upperFirst name).toList := by
  unfold upperFirst
  cases characters : name.toList with
  | nil => simp
  | cons first rest =>
    rw [characters, List.mem_cons, not_or] at absent
    rw [String.toList_ofList, List.mem_cons, not_or]
    exact ⟨(toUpper_ne (Ne.symm absent.1) noLetter).symm, absent.2⟩

/-- The statement behind the first label that is the default or lists the type name, where labels and statements
    take turns. -/
def statementFor? (typename : List Char) : List (List Char) → Option (List Char)
  | label :: statement :: rest =>
    if label = "default:".toList ∨ typename ∈ Text.quoted label then some statement else statementFor? typename rest
  | _ => none

/-- What the first switch of a text does for a type name. -/
def switchStatement? (typename : String) (text : List Char) : Option (List Char) :=
  statementFor? typename.toList (((Text.unindented text).dropWhile (· ≠ switchHead.toList)).tail)

theorem quoted_labels {labels : List String} (plain : ∀ label ∈ labels, IsQuotable label) {front : List Char}
    (outer : '"' ∉ front) :
    Text.quoted (front ++ ((", ".intercalate (labels.map fun l => "\"" ++ l ++ "\"")).toList ++ [':'])) =
      labels.map String.toList := by
  induction labels generalizing front with
  | nil => exact Text.quoted_of_not_mem (by simpa using outer)
  | cons label rest ih =>
    rw [List.forall_mem_cons] at plain
    cases rest with
    | nil =>
      have only := Text.quoted_append outer plain.1.1 [':']
      rw [Text.quoted_of_not_mem (show '"' ∉ [':'] by decide)] at only
      simpa using only
    | cons second rest =>
      have first := Text.quoted_append outer plain.1.1 ([',', ' '] ++
        ((", ".intercalate ((second :: rest).map fun l => "\"" ++ l ++ "\"")).toList ++ [':']))
      rw [ih plain.2 (show '"' ∉ [',', ' '] by decide)] at first
      rw [List.map_cons, String.intercalate_cons_of_ne_nil (by simp)]
      simpa using first

theorem quoted_label {labels : List String} (plain : ∀ label ∈ labels, IsQuotable label) (variant : Variant) :
    Text.quoted (Arm.label ⟨some labels, variant⟩).toList = labels.map String.toList := by
  have texts := quoted_labels plain (show '"' ∉ "case ".toList by decide)
  simpa [Arm.label] using texts

theorem statementFor?_arms {arms : List Arm}
    (plain : ∀ arm ∈ arms, ∀ labels ∈ arm.labels, ∀ label ∈ labels, IsQuotable label) {type : String}
    {variant : Variant} (chosen : choose? arms type = some variant) (level : Nat) (rest : List (List Char)) :
    statementFor? type.toList ((switchLines level arms).map (fun line => line.2.toList) ++ rest) =
      some variant.statement.toList := by
  induction arms with
  | nil => cases chosen
  | cons arm arms ih =>
    rw [List.forall_mem_cons] at plain
    obtain ⟨labels, own⟩ := arm
    have lines : (switchLines level (⟨labels, own⟩ :: arms)).map (fun line => line.2.toList) ++ rest =
        (Arm.label ⟨labels, own⟩).toList :: own.statement.toList ::
          ((switchLines level arms).map (fun line => line.2.toList) ++ rest) := by
      simp [switchLines]
    rw [lines, statementFor?]
    cases labels with
    | none =>
      cases chosen
      exact if_pos (.inl rfl)
    | some labels =>
      have texts := quoted_label (plain.1 labels rfl) own
      have other : (Arm.label ⟨some labels, own⟩).toList ≠ "default:".toList := by
        simp [Arm.label]
      by_cases listed : type ∈ labels
      · have first : choose? (⟨some labels, own⟩ :: arms) type = some own := by simp [choose?, listed]
        cases first.symm.trans chosen
        exact if_pos (.inr (texts ▸ List.mem_map_of_mem listed))
      · have onward : choose? (⟨some labels, own⟩ :: arms) type = choose? arms type := by simp [choose?, listed]
        rw [onward] at chosen
        rw [if_neg, ih plain.2 chosen]
        rw [texts, not_or]
        refine ⟨other, fun shown => listed ?_⟩
        obtain ⟨label, member, same⟩ := List.mem_map.mp shown
        exact String.toList_inj.mp same ▸ member

theorem mem_arms {variants : List Variant} {arm : Arm} (member : arm ∈ arms variants) :
    arm.variant ∈ variants ∧ ∀ labels ∈ arm.labels, labels = arm.variant.typenames := by
  induction variants with
  | nil => cases member
  | cons variant rest ih =>
    cases rest with
    | nil =>
      cases List.mem_singleton.mp member
      exact ⟨List.mem_singleton_self _, nofun⟩
    | cons second rest =>
      rw [arms] at member
      · split at member
        · obtain ⟨listed, labels⟩ := ih member
          exact ⟨List.mem_cons_of_mem _ listed, labels⟩
        · rcases List.mem_cons.mp member with rfl | member
          · exact ⟨List.mem_cons_self, fun labels same => (Option.some.inj same).symm⟩
          · obtain ⟨listed, labels⟩ := ih member
            exact ⟨List.mem_cons_of_mem _ listed, labels⟩
      · exact List.cons_ne_nil _ _

theorem not_mem_labels {labels : List String} (plain : ∀ label ∈ labels, IsQuotable label) :
    '\n' ∉ (", ".intercalate (labels.map fun l => "\"" ++ l ++ "\"")).toList := by
  induction labels with
  | nil => decide
  | cons label rest ih =>
    rw [List.forall_mem_cons] at plain
    have own := plain.1.2
    cases rest with
    | nil => simp [own]
    | cons second rest =>
      have others := ih plain.2
      rw [List.map_cons, String.intercalate_cons_of_ne_nil (by simp)]
      simp only [String.toList_append, List.mem_append, not_or]
      exact ⟨⟨⟨⟨by decide, own⟩, by decide⟩, by decide⟩, others⟩

structure Variant.OnOneLine (variant : Variant) : Prop where
  caseName : '\n' ∉ variant.caseName.toList
  structName : '\n' ∉ variant.structName.toList
  typenames : ∀ type ∈ variant.typenames, Swift.IsQuotable type

theorem isLine_switchLines {variants : List Variant} (plain : ∀ v ∈ variants, v.OnOneLine) (level : Nat) :
    ∀ line ∈ switchLines level (arms variants), Text.IsLine line.2.toList := by
  intro line listed
  obtain ⟨arm, member, shown⟩ := List.mem_flatMap.mp listed
  obtain ⟨ofVariant, labels⟩ := mem_arms member
  have names := plain _ ofVariant
  simp only [List.mem_cons, List.not_mem_nil, or_false] at shown
  rcases shown with rfl | rfl
  · obtain ⟨shownLabels, variant⟩ := arm
    cases shownLabels with
    | none =>
      change Text.IsLine "default:".toList
      decide
    | some texts =>
      have same : texts = variant.typenames := labels texts rfl
      have joined : '\n' ∉ (", ".intercalate (texts.map fun l => "\"" ++ l ++ "\"")).toList :=
        not_mem_labels (same ▸ names.typenames)
      refine ⟨?_, by simp [Arm.label]⟩
      simp only [Arm.label, Option.elim_some, String.toList_append, List.mem_append, not_or]
      exact ⟨⟨by decide, joined⟩, by decide⟩
  · exact ⟨by simp [Variant.statement, names.caseName, names.structName], by simp [Variant.statement]⟩

theorem isLine_choiceLines {name : String} (single : '\n' ∉ name.toList) {variants : List Variant}
    (plain : ∀ v ∈ variants, v.OnOneLine) (level : Nat) :
    ∀ line ∈ choiceLines level name variants, Text.IsLine line.2.toList := by
  have fixed : ∀ text ∈ ["", "public init(map: GraphQLMap) throws \x7b",
      "let typename: String = try map.value(forKey: \"__typename\")", switchHead, "\x7d"],
      Text.IsLine text.toList := by decide
  intro line listed
  simp only [choiceLines, choiceFront, List.mem_append, List.mem_cons, List.mem_map, List.not_mem_nil,
    or_false] at listed
  rcases listed with ((rfl | ⟨v, member, rfl⟩) | rfl | rfl | rfl) | rfl | branch | rfl | rfl
  · exact ⟨by simp [single], by simp⟩
  · have names := plain v member
    exact ⟨by simp [names.caseName, names.structName], by simp⟩
  · exact fixed _ (by simp)
  · exact fixed _ (by simp)
  · exact fixed _ (by simp)
  · exact fixed _ (by simp)
  · exact isLine_switchLines plain _ line branch
  · exact fixed _ (by simp)
  · exact fixed _ (by simp)

theorem ne_switchHead_of_choiceFront {level : Nat} {name : String} {variants : List Variant} :
    ∀ line ∈ choiceFront level name variants, line.2.toList ≠ switchHead.toList := by
  intro line listed
  simp only [choiceFront, List.mem_append, List.mem_cons, List.mem_map, List.not_mem_nil, or_false] at listed
  rcases listed with (rfl | ⟨v, member, rfl⟩) | rfl | rfl | rfl <;> simp [switchHead]

theorem isQuotable_of_arm {variants : List Variant} (plain : ∀ v ∈ variants, v.OnOneLine) :
    ∀ arm ∈ arms variants, ∀ labels ∈ arm.labels, ∀ label ∈ labels, IsQuotable label := by
  intro arm member labels shown label listed
  obtain ⟨ofVariant, same⟩ := mem_arms member
  rw [same labels shown] at listed
  exact (plain _ ofVariant).typenames label listed

/-- The lines of an enum are its head and its cases, the switch, and whatever stands behind the branches. -/
theorem unindented_choiceLines {name : String} (single : '\n' ∉ name.toList) {variants : List Variant}
    (plain : ∀ v ∈ variants, v.OnOneLine) (level : Nat) (after : List Char) :
    ∃ rest, Text.unindented (Writer.linesText (choiceLines level name variants) ++ after) =
      ([] :: (choiceFront level name variants).map (fun line => line.2.toList)) ++ switchHead.toList ::
        ((switchLines (level + 2) (arms variants)).map (fun line => line.2.toList) ++ rest) := by
  -- the last line is not ended, so it is taken together with what follows
  let ended := choiceFront level name variants ++
    (level + 2, switchHead) :: (switchLines (level + 2) (arms variants) ++ [(level + 2, "\x7d")])
  have lines : choiceLines level name variants = ended ++ [(level + 1, "\x7d")] := by simp [choiceLines, ended]
  have isLine : ∀ line ∈ ended, Text.IsLine line.2.toList := by
    intro line member
    refine isLine_choiceLines single plain level line ?_
    rw [lines]
    exact List.mem_append_left _ member
  have text : Writer.linesText (choiceLines level name variants) ++ after = Writer.linesText ended ++
      '\n' :: ((spaces (2 * (level + 1))).toList ++ "\x7d".toList ++ after) := by
    rw [lines, Writer.linesText_append]
    simp [Writer.linesText]
  rw [text, Text.unindented_linesText isLine]
  exact ⟨"\x7d".toList :: Text.unindented ((spaces (2 * (level + 1))).toList ++ "\x7d".toList ++ after),
    by simp [ended]⟩

/-- Read back from its lines, an enum does for a type name what its branches choose. -/
theorem switchStatement?_choiceLines {name : String} (single : '\n' ∉ name.toList) {variants : List Variant}
    (plain : ∀ v ∈ variants, v.OnOneLine) {type : String} {variant : Variant}
    (chosen : choose? (arms variants) type = some variant) (level : Nat) (after : List Char) :
    switchStatement? type (Writer.linesText (choiceLines level name variants) ++ after) =
      some variant.statement.toList := by
  obtain ⟨rest, lines⟩ := unindented_choiceLines single plain level after
  have skipped : ∀ line ∈ [] :: (choiceFront level name variants).map (fun line => line.2.toList),
      decide (line ≠ switchHead.toList) = true := by
    intro line listed
    rcases List.mem_cons.mp listed with rfl | listed
    · rfl
    · obtain ⟨shown, member, rfl⟩ := List.mem_map.mp listed
      exact decide_eq_true (ne_switchHead_of_choiceFront shown member)
  unfold switchStatement?
  rw [lines, List.dropWhile_append_of_pos skipped, List.dropWhile_cons_of_neg (by simp), List.tail_cons]
  exact statementFor?_arms (isQuotable_of_arm plain) chosen (level + 2) rest

example : switchStatement? "U" (Writer.linesText
    (choiceLines 0 "N" [⟨"asB", "AsB", ["T", "U"]⟩, ⟨"asV", "AsV", ["V"]⟩])) =
    some "self = .asB(try AsB(map: map))".toList := by decide +kernel

theorem switchStatement?_cons (type : String) (text : List Char) :
    switchStatement? type ('\n' :: text) = switchStatement? type text := by
  have lines : Text.unindented ('\n' :: text) = [] :: Text.unindented text := by
    change ((([] ++ '\n' :: text).splitOn '\n').map _) = _
    rw [List.splitOn_append_cons_self]
    rfl
  unfold switchStatement?
  rw [lines, List.dropWhile_cons_of_pos (by decide)]

variable {e : Emission} {field : ResponseField} {w : Writer}

theorem onOneLine_variant {set : PropertySet} (named : '\n' ∉ (field.setName set).toList)
    (types : ∀ type ∈ field.typenames e.schema set, IsQuotable type) : (variant e field set).OnOneLine := by
  have upper := not_mem_upperFirst named (show '\n' < 'A' by decide)
  refine ⟨?_, by simp [variant, upper], types⟩
  unfold variant identifier
  dsimp only
  split <;> simp [upper]

theorem not_mem_structName {name : String} (single : '\n' ∉ name.toList) : '\n' ∉ (structName name).toList := by
  refine not_mem_upperFirst (fun member => single ?_) (by decide)
  rw [String.toList_ofList] at member
  exact (List.dropWhile_suffix _).subset member

/-- In the text of the enum for a field, the switch does for each object type of the field what makes the shape
    that the field has for the type. -/
theorem switchStatement?_writeNested (started : w.output ≠ "") (diverges : field.cases ≠ [])
    (apart : (field.cases.map TypeCase.condition).Nodup) (single : '\n' ∉ field.responseName.toList)
    (plain : ∀ set ∈ field.propertySets e.schema, '\n' ∉ (field.setName set).toList ∧
      ∀ type ∈ field.typenames e.schema set, IsQuotable type)
    {declared : Nested} (made : nestedType e field = .ok declared) :
    ∃ text, (writeNested w declared).output.toList = w.output.toList ++ text ∧
      ∀ type ∈ e.schema.possibleTypes field.type.baseName,
        switchStatement? type text = some (variant e field (field.shapeFor type)).statement.toList := by
  rw [nestedType_eq diverges] at made
  obtain ⟨inner, _, made⟩ := bind_eq_ok.mp made
  cases made
  let variants := (field.propertySets e.schema).map (variant e field)
  have filled : variants ≠ [] := by simpa [variants] using field.propertySets_ne_nil e.schema diverges
  obtain ⟨after, written⟩ := exists_lines_of_writeNested started (structName field.responseName) filled inner
  let text := Writer.linesText (choiceLines w.level (structName field.responseName) variants) ++ after
  have decodes : ∀ type ∈ e.schema.possibleTypes field.type.baseName,
      switchStatement? type text = some (variant e field (field.shapeFor type)).statement.toList := by
    intro type possible
    refine switchStatement?_choiceLines (not_mem_structName single) ?_ (choose?_shapeFor diverges apart possible) _ after
    intro v listed
    obtain ⟨set, member, rfl⟩ := List.mem_map.mp listed
    exact onOneLine_variant (plain set member).1 (plain set member).2
  rcases w.output_newlineIfNeeded with same | same
  · exact ⟨text, by rw [written, same], decodes⟩
  · refine ⟨'\n' :: text, by rw [written, same, List.append_assoc]; rfl, fun type possible => ?_⟩
    rw [switchStatement?_cons, decodes type possible]

theorem isQuotable_of_isName {name : String} (isName : isName name = true) : IsQuotable name := by
  obtain ⟨c, rest, spelled, start, every, _⟩ := Token.exists_read_name isName
  have noName (d : Char) (other : Token.isNameStart d = false ∧ Token.isNameChar d = false) : d ∉ name.toList := by
    rw [spelled, List.mem_cons, not_or]
    constructor
    · rintro rfl
      exact absurd start (by simp [other.1])
    · intro member
      exact absurd (List.all_eq_true.mp every d member) (by simp [other.2])
  exact ⟨noName '"' (by decide), noName '\n' (by decide)⟩

/-- Whatever was read and is written in Swift, the text of the enum for a field with several shapes does for each
    object type what makes the shape that the field has for the type. -/
theorem switchStatement?_of_emission {path : Option String} {schemaText : String} {schema : Schema}
    (read : Schema.read path schemaText = .ok schema) {document : Option Document}
    (isRead : ∀ given ∈ document, given.IsRead) {options : Options}
    (emitted : schema.emission document .swift options = .ok e) (has : e.compiled.Has field)
    (diverges : field.cases ≠ []) (started : w.output ≠ "") {declared : Nested}
    (made : nestedType e field = .ok declared) :
    ∃ text, (writeNested w declared).output.toList = w.output.toList ++ text ∧
      ∀ type ∈ schema.possibleTypes field.type.baseName,
        switchStatement? type text = some (variant e field (field.shapeFor type)).statement.toList := by
  obtain ⟨valid, prepared, isValid, prepares, done⟩ := Schema.emission_eq_ok emitted
  have readable := Schema.readable_of_read read
  obtain ⟨_, rfl, _⟩ := prepared.exists_leaves done
  have named : field.Named :=
    has.named readable ((Schema.readable_validDocument isRead isValid).prepare prepares) done
  have apart := (ResponseField.wellKeyed_iff.mp (has.wellKeyed done)).2.2.conditions
  refine switchStatement?_writeNested started diverges apart (isQuotable_of_isName named.responseName).2 ?_ made
  intro set member
  obtain ⟨isName, types⟩ := named.of_propertySet readable diverges member
  exact ⟨(isQuotable_of_isName isName).2, fun type listed => isQuotable_of_isName (types type listed)⟩

end Swift

end QueryTypes
