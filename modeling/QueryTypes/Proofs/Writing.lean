import QueryTypes.Declaration.Flow
import QueryTypes.Declaration.TypeScript
import QueryTypes.Proofs.PathNames

namespace QueryTypes

namespace Writer

def Continues (w after : Writer) : Prop := w.output.toList <+: after.output.toList

variable {w after final : Writer}

theorem Continues.refl (w : Writer) : w.Continues w := List.prefix_rfl

theorem Continues.trans (first : w.Continues after) (second : after.Continues final) : w.Continues final :=
  List.IsPrefix.trans first second

theorem continues_print (w : Writer) (text : String) : w.Continues (w.print text) := by
  unfold Continues print
  rw [String.toList_append]
  exact List.prefix_append _ _

theorem print_print (w : Writer) (text rest : String) : (w.print text).print rest = w.print (text ++ rest) := by
  simp [print, String.append_assoc]

theorem continues_newline (w : Writer) : w.Continues w.newline := by
  unfold newline
  split
  · exact .refl w
  · exact w.continues_print "\n"

theorem continues_newlineIfNeeded (w : Writer) : w.Continues w.newlineIfNeeded := by
  unfold newlineIfNeeded
  split
  · exact .refl w
  · exact w.continues_newline

theorem continues_onNewline (w : Writer) (text : String) : w.Continues (w.onNewline text) := by
  unfold onNewline
  split
  · exact .refl w
  · exact (w.continues_newline.trans (continues_print _ _)).trans (continues_print _ _)

theorem continues_each {α : Type} {write : Writer → α → Writer} (step : ∀ w x, Continues w (write w x))
    (w : Writer) (xs : List α) : w.Continues (w.each xs write) := by
  unfold each
  induction xs generalizing w with
  | nil => exact .refl w
  | cons x xs ih => exact (step w x).trans (ih (write w x))

theorem continues_onNewlines (w : Writer) (texts : List String) : w.Continues (w.onNewlines texts) :=
  continues_each continues_onNewline w texts

theorem output_ne_of_continues (started : w.output ≠ "") (continues : w.Continues after) : after.output ≠ "" := by
  intro none
  have continues : w.output.toList <+: after.output.toList := continues
  rw [none] at continues
  exact started (String.toList_eq_nil_iff.mp ( List.prefix_nil.mp continues))

/-- A line that is not empty behind a text that is not empty. -/
theorem output_onNewline (started : w.output ≠ "") {text : String} (filled : text ≠ "") :
    (w.onNewline text).output = w.output ++ "\n" ++ spaces (2 * w.level) ++ text ∧
      (w.onNewline text).level = w.level ∧ (w.onNewline text).atStart = false := by
  have notEmpty : w.output.isEmpty = false := by simpa using started
  have shown : text.isEmpty = false := by simpa using filled
  simp [onNewline, newline, print, notEmpty, shown]

section Body

variable {body : Writer → Writer} (more : ∀ w, Continues w (body w))

include more

theorem continues_indented (w : Writer) : w.Continues (w.indented body) := more w.enter

theorem continues_enclosed (w : Writer) (opening closing : String) :
    (w.print opening).Continues (w.enclosed opening closing body) :=
  (continues_indented more _).trans (continues_onNewline _ _)

end Body

end Writer

namespace Declaration

open Writer

mutual
theorem continues_writeMember (w : Writer) : (member : Member MemberType) → w.Continues (writeMember w member)
  | ⟨comments, name, isOptional, type⟩ => by
    rw [writeMember]
    exact (w.continues_onNewlines _).trans (continues_writeTyped _ _ type)

theorem continues_writeTyped (w : Writer) (label : String) :
    (type : MemberType) → w.Continues (writeTyped w label type)
  | .literals texts => by
    rw [writeTyped]
    exact w.continues_onNewline _
  | .named around alternatives => by
    rw [writeTyped]
    exact w.continues_onNewline _
  | .object around members => by
    rw [writeTyped]
    have inside := continues_enclosed (fun w => continues_writeMembers w members)
      (w.onNewline (label ++ around.opening)) "\x7b" "\x7d"
    exact (((w.continues_onNewline _).trans (continues_print _ _)).trans inside).trans (continues_print _ _)

theorem continues_writeMembers (w : Writer) :
    (members : List (Member MemberType)) → w.Continues (writeMembers w members)
  | [] => .refl w
  | member :: rest => by
    rw [writeMembers]
    exact (continues_writeMember w member).trans (continues_writeMembers _ rest)
end

theorem continues_start (w : Writer) (comments : List String) : w.Continues (start w comments) := by
  unfold start
  refine (w.continues_newlineIfNeeded.trans (continues_newline _)).trans (continues_each ?_ _ _)
  exact fun w line => (continues_print _ _).trans (continues_newline _)

theorem continues_writeValues (w : Writer) (values : List (Option String × String)) :
    w.Continues (writeValues w values) := by
  induction values generalizing w with
  | nil => exact .refl w
  | cons value rest ih =>
    rw [writeValues]
    exact ((w.continues_onNewlines _).trans (continues_onNewline _ _)).trans (ih _)

def heading (keyword name : String) : String := "export " ++ keyword ++ " " ++ name ++ " "

/-- A text declares an exported type of this name. -/
def Exports (text name : String) : Prop :=
  ∃ keyword ∈ ["type", "interface"], (heading keyword name).toList <:+: text.toList

def HasHeadings (dialect : Dialect) : Prop :=
  ∀ name, Exports (dialect.head.write name ++ dialect.body.opening) name

theorem Exports.of_print {text name : String} (exported : Exports text name) (w : Writer) {after : Writer}
    (continues : (w.print text).Continues after) : Exports after.output name := by
  obtain ⟨keyword, known, shown⟩ := exported
  have printed : text.toList <:+: (w.print text).output.toList := by
    unfold Writer.print
    rw [String.toList_append]
    exact (List.suffix_append _ _).isInfix
  exact ⟨keyword, known, (shown.trans printed).trans continues.isInfix⟩

/-- Behind what was written, a declaration starts with a heading. -/
theorem exists_heading {dialect : Dialect} (headed : HasHeadings dialect) (w : Writer)
    (declaration : Declaration) :
    ∃ before text, w.Continues before ∧ Exports text declaration.name ∧
      (before.print text).Continues (write dialect w declaration) := by
  cases declaration with
  | record name comments members =>
    refine ⟨start w comments, _, continues_start w comments, headed name, ?_⟩
    rw [← print_print]
    exact continues_enclosed (fun w => continues_writeMembers w members) _ _ _
  | enum name comments values =>
    have exported : Exports ("export type " ++ name ++ " =") name :=
      ⟨"type", List.mem_cons_self, [], ['='], by simp [heading]⟩
    refine ⟨start w comments, _, continues_start w comments, exported, ?_⟩
    rw [write]
    split
    · exact continues_print _ _
    · exact continues_indented (fun w => continues_writeValues w values) _
  | union name alternatives =>
    have exported : Exports ("export type " ++ name ++ " = " ++ " | ".intercalate alternatives ++ ";") name :=
      ⟨"type", List.mem_cons_self, [], '=' :: ' ' :: (" | ".intercalate alternatives ++ ";").toList,
        by simp [heading]⟩
    exact ⟨start w [], _, continues_start w [], exported, .refl _⟩
  | methods name entries =>
    have exported : Exports ("export interface " ++ name ++ " \x7b") name :=
      ⟨"interface", List.mem_cons_of_mem _ List.mem_cons_self, [], ['\x7b'], by simp [heading]⟩
    refine ⟨start w [], _, continues_start w [], exported, ?_⟩
    rw [← print_print]
    refine continues_enclosed (fun w => continues_each ?_ w entries) _ _ _
    exact fun w entry => w.continues_onNewline _

theorem continues_write {dialect : Dialect} (headed : HasHeadings dialect) (w : Writer)
    (declaration : Declaration) : w.Continues (write dialect w declaration) := by
  obtain ⟨before, text, first, _, onward⟩ := exists_heading headed w declaration
  exact (first.trans (continues_print before text)).trans onward

/-- A source has the headings of all its declarations. -/
theorem exports_source {dialect : Dialect} (headed : HasHeadings dialect) {declarations : List Declaration}
    {declaration : Declaration} (member : declaration ∈ declarations) :
    Exports (source dialect declarations) declaration.name := by
  obtain ⟨earlier, later, rfl⟩ := List.append_of_mem member
  unfold source
  dsimp only
  generalize (Writer.print {} dialect.banner).onNewline generatedHeader = w
  unfold Writer.each
  rw [List.foldl_append, List.foldl_cons]
  generalize earlier.foldl (write dialect) w = w
  obtain ⟨before, text, _, exported, onward⟩ := exists_heading headed w declaration
  have more := continues_each (continues_write headed) (write dialect w declaration) later
  exact exported.of_print before ((onward.trans more).trans (continues_newline _))

end Declaration

open Declaration

theorem Flow.hasHeadings : HasHeadings Flow.dialect := by
  intro name
  refine ⟨"type", List.mem_cons_self, [], ['=', ' ', '\x7b', '|'], ?_⟩
  simp [heading, Flow.dialect, Around.write]

theorem TypeScript.hasHeadings (preferInterfaces : Bool) : HasHeadings (TypeScript.dialect preferInterfaces) := by
  intro name
  cases preferInterfaces with
  | true =>
    refine ⟨"interface", List.mem_cons_of_mem _ List.mem_cons_self, [], ['\x7b'], ?_⟩
    simp [heading, TypeScript.dialect, Around.write]
  | false =>
    refine ⟨"type", List.mem_cons_self, [], ['=', ' ', '\x7b'], ?_⟩
    simp [heading, TypeScript.dialect, Around.write]

end QueryTypes
