import QueryTypes.Declaration.Swift
import QueryTypes.Proofs.Results
import QueryTypes.Proofs.TextLines
import QueryTypes.Proofs.Writing

namespace QueryTypes

namespace Swift

open Writer (Continues output_ne_of_continues output_onNewline)

def unquote? : List Char → Option (List Char × List Char)
  | [] => none
  | '"' :: rest => some ([], rest)
  | '\n' :: _ => none
  | '\\' :: c :: rest =>
    if c = '\\' ∨ c = '"' then (unquote? rest).map fun (value, after) => (c :: value, after) else none
  | c :: rest => (unquote? rest).map fun (value, after) => (c :: value, after)

def skipBlanks (text : List Char) : List Char := text.dropWhile fun c => c == ' ' || c == '\n'

theorem length_skipBlanks_le (text : List Char) : (skipBlanks text).length ≤ text.length :=
  (List.dropWhile_suffix _).length_le

theorem length_unquote?_le {text value after : List Char} (split : unquote? text = some (value, after)) :
    after.length ≤ text.length := by
  fun_induction unquote? text generalizing value after with
  | case1 => cases split
  | case2 rest =>
    cases split
    simp
  | case3 => cases split
  | case4 c rest _ ih =>
    obtain ⟨⟨inside, behind⟩, found, same⟩ := Option.map_eq_some_iff.mp split
    cases same
    have shorter := ih found
    simp only [List.length_cons]
    omega
  | case5 => cases split
  | case6 c rest _ _ _ ih =>
    obtain ⟨⟨inside, behind⟩, found, same⟩ := Option.map_eq_some_iff.mp split
    cases same
    have shorter := ih found
    simp only [List.length_cons]
    omega

/-- The value of the literals at the front of a text that are added up. -/
def stringValue? (text : List Char) : Option (List Char) :=
  match _opened : skipBlanks text with
  | '"' :: inside =>
    match _closed : unquote? inside with
    | some (value, after) =>
      match _further : skipBlanks after with
      | '+' :: more => (stringValue? more).map (value ++ ·)
      | _ => some value
    | none => none
  | _ => none
termination_by text.length
decreasing_by
  have opened := length_skipBlanks_le text
  have closed := length_unquote?_le _closed
  have further := length_skipBlanks_le after
  rw [_opened] at opened
  rw [_further] at further
  simp only [List.length_cons] at opened further
  omega

def escaped (c : Char) : List Char := if c = '\\' ∨ c = '"' then ['\\', c] else [c]

theorem toList_literal (text : String) : (literal text).toList = '"' :: (text.toList.flatMap escaped ++ ['"']) :=
  String.toList_ofList

theorem unquote?_escaped {text : List Char} (single : '\n' ∉ text) (rest : List Char) :
    unquote? (text.flatMap escaped ++ '"' :: rest) = some (text, rest) := by
  induction text with
  | nil => rfl
  | cons c text ih =>
    rw [List.mem_cons, not_or] at single
    rw [List.flatMap_cons, List.append_assoc]
    by_cases special : c = '\\' ∨ c = '"'
    · have onward : unquote? ('\\' :: c :: (text.flatMap escaped ++ '"' :: rest)) =
          (unquote? (text.flatMap escaped ++ '"' :: rest)).map fun (value, after) => (c :: value, after) :=
        if_pos special
      rw [escaped, if_pos special]
      exact onward.trans (by rw [ih single.2]; rfl)
    · rw [not_or] at special
      rw [escaped, if_neg (by simpa using special), List.cons_append, List.nil_append, unquote?, ih single.2]
      · rfl
      · exact special.2
      · exact Ne.symm single.1
      · exact fun _ _ isSlash => absurd isSlash special.1

section Sum

variable {text inside value after more : List Char}

theorem stringValue?_of_last (opened : skipBlanks text = '"' :: inside)
    (closed : unquote? inside = some (value, after)) (ends : (skipBlanks after).head? ≠ some '+') :
    stringValue? text = some value := by
  rw [stringValue?]
  split
  · rename_i found
    cases opened.symm.trans found
    split
    · rename_i split
      cases closed.symm.trans split
      split
      · rename_i further
        rw [further] at ends
        exact absurd rfl ends
      · rfl
    · rename_i none
      cases closed.symm.trans none
  · rename_i other
    exact absurd opened (other inside)

theorem stringValue?_of_more (opened : skipBlanks text = '"' :: inside)
    (closed : unquote? inside = some (value, after)) (further : skipBlanks after = '+' :: more) :
    stringValue? text = (stringValue? more).map (value ++ ·) := by
  rw [stringValue?]
  split
  · rename_i found
    cases opened.symm.trans found
    split
    · rename_i split
      cases closed.symm.trans split
      split
      · rename_i also
        cases further.symm.trans also
        rfl
      · rename_i other
        exact absurd further (other more)
    · rename_i none
      cases closed.symm.trans none
  · rename_i other
    exact absurd opened (other inside)

def sumText (indent : Nat) : List String → List Char
  | [] => []
  | line :: rest =>
    '\n' :: ((spaces indent).toList ++ (literal line).toList) ++ (if rest.isEmpty then [] else [' ', '+']) ++
      sumText indent rest

/-- Line feeds and an indent in front of something else. -/
theorem skipBlanks_indented {feeds : List Char} (each : ∀ c ∈ feeds, c = '\n') (indent : Nat) {c : Char}
    (shown : (c == ' ' || c == '\n') = false) (rest : List Char) :
    skipBlanks (feeds ++ ((spaces indent).toList ++ c :: rest)) = c :: rest := by
  have blank : ∀ d ∈ feeds ++ (spaces indent).toList, (d == ' ' || d == '\n') = true := by
    intro d member
    rcases List.mem_append.mp member with feed | space
    · rw [each d feed]
      rfl
    · rw [spaces, String.toList_ofList] at space
      rw [List.eq_of_mem_replicate space]
      rfl
  rw [← List.append_assoc, skipBlanks, List.dropWhile_append_of_pos blank, List.dropWhile_cons, shown]
  rfl

theorem skipBlanks_line (indent : Nat) (line : String) (after : List Char) :
    skipBlanks ('\n' :: ((spaces indent).toList ++ (literal line).toList) ++ after) =
      '"' :: (line.toList.flatMap escaped ++ '"' :: after) := by
  have blanks := skipBlanks_indented (List.forall_mem_singleton.mpr rfl) indent
    (show ('"' == ' ' || '"' == '\n') = false from rfl) (line.toList.flatMap escaped ++ '"' :: after)
  simpa [toList_literal] using blanks

theorem stringValue?_sumText (indent : Nat) {lines : List String} (filled : lines ≠ [])
    (single : ∀ line ∈ lines, '\n' ∉ line.toList) (ends : (skipBlanks after).head? ≠ some '+') :
    stringValue? (sumText indent lines ++ after) = some (lines.flatMap String.toList) := by
  induction lines with
  | nil => exact absurd rfl filled
  | cons line rest ih =>
    rw [List.forall_mem_cons] at single
    rw [sumText, List.append_assoc, List.append_assoc]
    have closed (after : List Char) := unquote?_escaped single.1 after
    cases rest with
    | nil =>
      have last := stringValue?_of_last (skipBlanks_line indent line _) (closed _) ends
      simpa [sumText] using last
    | cons second rest =>
      have plus (tail : List Char) : skipBlanks ([' ', '+'] ++ tail) = '+' :: tail := rfl
      have more := stringValue?_of_more (skipBlanks_line indent line _) (closed _)
        (plus (sumText indent (second :: rest) ++ after))
      rw [ih (List.cons_ne_nil _ _) single.2] at more
      rw [List.flatMap_cons]
      exact more

end Sum

section Lines

variable {w : Writer}

theorem output_writeText (started : w.output ≠ "") (text : List String) :
    (writeText w text).output.toList = w.output.toList ++ sumText (2 * w.level) text ∧
      (text ≠ [] → (writeText w text).atStart = false) := by
  induction text generalizing w with
  | nil =>
    rw [writeText, sumText, List.append_nil]
    exact ⟨rfl, fun filled => absurd rfl filled⟩
  | cons line rest ih =>
    rw [writeText, sumText]
    have filled : literal line ++ (if rest.isEmpty then "" else " +") ≠ "" := by
      intro none
      have characters := congrArg String.toList none
      simp [toList_literal] at characters
    obtain ⟨output, level, atStart⟩ := output_onNewline started filled
    have onward : (w.onNewline (literal line ++ if rest.isEmpty then "" else " +")).output ≠ "" := by
      rw [output]
      simp [started]
    obtain ⟨written, begun⟩ := ih onward
    refine ⟨?_, fun _ => ?_⟩
    · rw [written, output, level]
      cases rest <;> simp
    · cases rest with
      | nil => exact atStart
      | cons second rest => exact begun (List.cons_ne_nil _ _)

theorem continues_block {body : Writer → Writer} (more : ∀ w, Continues w (body w)) (w : Writer) :
    w.Continues (w.block body) :=
  (w.continues_print _).trans (Writer.continues_enclosed more w _ _)

theorem continues_block_of_body (body : Writer → Writer) (w : Writer) :
    (body (w.print " \x7b").enter).Continues (w.block body) :=
  Writer.continues_onNewline ((body (w.print " \x7b").enter).leave (w.print " \x7b").scopes.length) "\x7d"

theorem continues_writeComment (w : Writer) (comment : Option String) : w.Continues (writeComment w comment) :=
  w.continues_onNewlines _

theorem continues_writeProperty (w : Writer) (property : Property) : w.Continues (writeProperty w property) :=
  (continues_writeComment w _).trans (Writer.continues_onNewline _ _)

theorem continues_writeSwitch (w : Writer) (variants : List Variant) : w.Continues (writeSwitch w variants) := by
  have arm (w : Writer) (arm : Arm) : w.Continues (writeArm w arm) :=
    (w.continues_onNewline _).trans (Writer.continues_indented (fun w => w.continues_onNewline _) _)
  exact (((w.continues_onNewline _).trans (Writer.continues_onNewline _ _)).trans
    (Writer.continues_each arm _ _)).trans (Writer.continues_onNewline _ _)

mutual
theorem continues_writeNested (w : Writer) : (type : Nested) → w.Continues (writeNested w type)
  | .struct name properties inner => by
    have decoding (w : Writer) : w.Continues (w.each properties writeDecoding) :=
      Writer.continues_each (fun w _ => w.continues_onNewline _) w properties
    rw [writeNested]
    refine (w.continues_newlineIfNeeded.trans (Writer.continues_onNewline _ _)).trans (continues_block ?_ _)
    intro w
    have properties := (Writer.continues_each continues_writeProperty w properties).trans
      (Writer.continues_newlineIfNeeded _)
    exact ((properties.trans (Writer.continues_onNewline _ _)).trans (continues_block decoding _)).trans
      (continues_writeAll _ inner)
  | .choice name variants inner => by
    rw [writeNested]
    refine (w.continues_newlineIfNeeded.trans (Writer.continues_onNewline _ _)).trans (continues_block ?_ _)
    intro w
    have cases := (w.continues_onNewlines (variants.map fun v => "case " ++ v.caseName ++ "(" ++ v.structName ++ ")")).trans
      (Writer.continues_newlineIfNeeded _)
    exact ((cases.trans (Writer.continues_onNewline _ _)).trans
      (continues_block (fun w => continues_writeSwitch w variants) _)).trans (continues_writeAll _ inner)

theorem continues_writeAll (w : Writer) : (types : List Nested) → w.Continues (writeAll w types)
  | [] => .refl w
  | type :: rest => by
    rw [writeAll]
    exact (continues_writeNested w type).trans (continues_writeAll _ rest)
end

def openText (w : Writer) (text : List String) : Writer :=
  (w.onNewline "public static let operationString =").indented fun w => writeText w text

/-- Behind the text of an operation follow an empty line and the next declaration. -/
theorem exists_continues_writeOperation (w : Writer) (text : List String) (parameters : List Parameter)
    (data : Nested) :
    ∃ line, ((openText w text).newlineIfNeeded.onNewline ("public " ++ line)).Continues
      (writeOperation w text parameters data) := by
  have assigned (w : Writer) : w.Continues (w.onNewlines (parameters.map fun p => "self." ++ p.name ++ " = " ++ p.name)) :=
    w.continues_onNewlines _
  cases parameters with
  | nil =>
    refine ⟨"init(" ++ parameterList [] ++ ")", ?_⟩
    have data := continues_writeNested (((openText w text).newlineIfNeeded.onNewline
      ("public init(" ++ parameterList [] ++ ")")).block fun w => w) data
    exact (continues_block Continues.refl _).trans data
  | cons first rest =>
    refine ⟨"let " ++ first.name ++ ": " ++ first.type, ?_⟩
    unfold writeOperation
    refine Continues.trans ?_ (continues_writeNested _ data)
    rw [if_neg (by simp), if_neg (by simp)]
    refine Continues.trans ?_ (continues_block (fun w => w.continues_onNewline _) _)
    refine Continues.trans ?_ (Writer.continues_newlineIfNeeded _ |>.trans (Writer.continues_onNewline _ _))
    refine Continues.trans ?_ (continues_block assigned _)
    refine Continues.trans ?_ (Writer.continues_newlineIfNeeded _ |>.trans (Writer.continues_onNewline _ _))
    have parameter := Writer.continues_onNewlines ((openText w text).newlineIfNeeded.onNewline
      ("public let " ++ first.name ++ ": " ++ first.type)) (rest.map fun p => "public let " ++ p.name ++ ": " ++ p.type)
    have joined : "public " ++ ("let " ++ first.name ++ ": " ++ first.type) =
        "public let " ++ first.name ++ ": " ++ first.type := by
      simp only [← String.append_assoc]
      rfl
    rw [joined]
    exact parameter

theorem continues_writeText (w : Writer) (text : List String) : w.Continues (writeText w text) := by
  induction text generalizing w with
  | nil => exact .refl w
  | cons line rest ih =>
    rw [writeText]
    exact (w.continues_onNewline _).trans (ih _)

theorem continues_writeItem (w : Writer) (item : Item) : w.Continues (writeItem w item) := by
  have started (line : String) : w.Continues (w.newlineIfNeeded.onNewline line) :=
    w.continues_newlineIfNeeded.trans (Writer.continues_onNewline _ _)
  cases item with
  | operation name kind text parameters data =>
    refine (started _).trans (continues_block (fun w => ?_) _)
    obtain ⟨line, onward⟩ := exists_continues_writeOperation w text parameters data
    have opened : w.Continues (openText w text) :=
      (w.continues_onNewline _).trans (Writer.continues_indented (fun w => continues_writeText w text) _)
    exact ((opened.trans (Writer.continues_newlineIfNeeded _)).trans (Writer.continues_onNewline _ _)).trans onward
  | enum name comment values =>
    have value (w : Writer) (value : EnumValue) : w.Continues ((writeComment w (value.description.map trim)).onNewline
        ("case " ++ identifier (lowerCamel value.name) ++ " = \"" ++ value.name ++ "\"")) :=
      (continues_writeComment w _).trans (Writer.continues_onNewline _ _)
    have head := (w.continues_newlineIfNeeded.trans (continues_writeComment _ comment)).trans
      (Writer.continues_onNewline _ ("public enum " ++ name ++ ": String"))
    have body := head.trans (continues_block (fun w => Writer.continues_each value w values) _)
    exact (body.trans (Writer.continues_newlineIfNeeded _)).trans (Writer.continues_onNewline _ _)
  | input name parameters =>
    refine (started _).trans (continues_block (fun w => ?_) _)
    exact (((w.continues_onNewline _).trans (Writer.continues_newlineIfNeeded _)).trans
      (Writer.continues_onNewline _ _)).trans (continues_block (fun w => w.continues_onNewline _) _)

def textHeading (name : String) (kind : OperationKind) (indent : Nat) : String :=
  "public final class " ++ name ++ ": GraphQL" ++ kind.suffix ++ " \x7b\n" ++ spaces indent ++
    "public static let operationString ="

theorem toList_textHeading (name : String) (kind : OperationKind) (indent : Nat) :
    (textHeading name kind indent).toList = ("public final class " ++ name ++ ": GraphQL" ++ kind.suffix).toList ++
      (" \x7b".toList ++ ("\n".toList ++ ((spaces indent).toList ++ "public static let operationString =".toList))) := by
  have parts : " \x7b\n" = " \x7b" ++ "\n" := by decide
  unfold textHeading
  rw [parts]
  simp only [String.toList_append, List.append_assoc]

/-- What the heading and the literals of a text are written as. -/
theorem output_openText (started : w.output ≠ "") {text : List String} (filled : text ≠ []) :
    (openText w text).output.toList = w.output.toList ++ "\n".toList ++ (spaces (2 * w.level)).toList ++
        "public static let operationString =".toList ++ sumText (2 * (w.level + 1)) text ∧
      (openText w text).atStart = false := by
  obtain ⟨output, level, _⟩ := output_onNewline started (show "public static let operationString =" ≠ "" by decide)
  have opened : (w.onNewline "public static let operationString =").enter.output ≠ "" := by
    rw [Writer.enter, output]
    simp [started]
  obtain ⟨written, begun⟩ := output_writeText opened text
  refine ⟨?_, begun filled⟩
  change (writeText (w.onNewline "public static let operationString =").enter text).output.toList = _
  rw [written]
  simp only [Writer.enter, output, level, String.toList_append]

theorem output_next (started : w.output ≠ "") (begun : w.atStart = false) {line : String} (filled : line ≠ "") :
    (w.newlineIfNeeded.onNewline line).output.toList =
      w.output.toList ++ '\n' :: '\n' :: ((spaces (2 * w.newlineIfNeeded.level)).toList ++ line.toList) := by
  have ended : w.newlineIfNeeded.output = w.output ++ "\n" := by
    have notEmpty : w.output.isEmpty = false := by simpa using started
    simp [Writer.newlineIfNeeded, Writer.newline, begun, notEmpty]
  obtain ⟨output, _⟩ := output_onNewline (output_ne_of_continues started w.continues_newlineIfNeeded) filled
  rw [output, ended]
  simp

theorem exists_text_of_writeOperation (started : w.output ≠ "") {text : List String} (filled : text ≠ [])
    (single : ∀ line ∈ text, '\n' ∉ line.toList) (parameters : List Parameter) (data : Nested) {final : Writer}
    (onward : (writeOperation w text parameters data).Continues final) :
    ∃ after, final.output.toList = w.output.toList ++ "\n".toList ++ (spaces (2 * w.level)).toList ++
        "public static let operationString =".toList ++ after ∧
      stringValue? after = some (text.flatMap String.toList) := by
  obtain ⟨opened, begun⟩ := output_openText started filled
  have openStarted : (openText w text).output ≠ "" := by
    intro none
    rw [none] at opened
    simp at opened
  obtain ⟨line, continues⟩ := exists_continues_writeOperation w text parameters data
  obtain ⟨more, rest⟩ := continues.trans onward
  rw [output_next openStarted begun (by simp), opened, String.toList_append] at rest
  refine ⟨sumText (2 * (w.level + 1)) text ++ ('\n' :: '\n' ::
    ((spaces (2 * (openText w text).newlineIfNeeded.level)).toList ++ ("public ".toList ++ line.toList)) ++ more), ?_, ?_⟩
  · rw [← rest]
    simp only [List.append_assoc, List.cons_append]
  · -- The next declaration starts with another character than a sum goes on with.
    have feeds : ∀ c ∈ ['\n', '\n'], c = '\n' := by simp
    have next := skipBlanks_indented feeds (2 * (openText w text).newlineIfNeeded.level)
      (show ('p' == ' ' || 'p' == '\n') = false from rfl) ("ublic ".toList ++ line.toList ++ more)
    apply stringValue?_sumText _ filled single
    rw [List.cons_append, List.cons_append, List.append_assoc]
    intro plus
    have shown : (skipBlanks ('\n' :: '\n' :: ((spaces (2 * (openText w text).newlineIfNeeded.level)).toList ++
      ("public ".toList ++ line.toList ++ more)))).head? = some 'p' := congrArg List.head? next
    exact absurd (shown.symm.trans plus) (by decide)

/-- The source up to the text of an operation and behind it. -/
theorem exists_text_of_writeItem (started : w.output ≠ "") {text : List String} (filled : text ≠ [])
    (single : ∀ line ∈ text, '\n' ∉ line.toList) (name : String) (kind : OperationKind)
    (parameters : List Parameter) (data : Nested) {final : Writer}
    (onward : (writeItem w (.operation name kind text parameters data)).Continues final) :
    ∃ before indent after, final.output.toList = before ++ (textHeading name kind indent).toList ++ after ∧
      stringValue? after = some (text.flatMap String.toList) := by
  let head := "public final class " ++ name ++ ": GraphQL" ++ kind.suffix
  have headed : head ≠ "" := by simp [head]
  let inside := ((w.newlineIfNeeded.onNewline head).print " \x7b").enter
  have shown : inside.output.toList = w.newlineIfNeeded.output.toList ++ "\n".toList ++
      (spaces (2 * w.newlineIfNeeded.level)).toList ++ head.toList ++ " \x7b".toList := by
    obtain ⟨output, _⟩ := output_onNewline (output_ne_of_continues started w.continues_newlineIfNeeded) headed
    simp only [inside, Writer.enter, Writer.print, output, String.toList_append]
  have insideStarted : inside.output ≠ "" := by
    intro none
    rw [none] at shown
    simp at shown
  have closed : (writeOperation inside text parameters data).Continues
      (writeItem w (.operation name kind text parameters data)) :=
    continues_block_of_body (fun w => writeOperation w text parameters data) (w.newlineIfNeeded.onNewline head)
  obtain ⟨after, found, value⟩ :=
    exists_text_of_writeOperation insideStarted filled single parameters data (closed.trans onward)
  refine ⟨w.newlineIfNeeded.output.toList ++ "\n".toList ++ (spaces (2 * w.newlineIfNeeded.level)).toList,
    2 * inside.level, after, ?_, value⟩
  rw [found, shown, toList_textHeading]
  simp only [List.append_assoc, head]

end Lines

theorem exists_item {e : Emission} {items : List Item} (made : Swift.items e = .ok items)
    {operation : CompiledOperation} (member : operation ∈ e.compiled.operations) :
    ∃ parameters data, .operation (upperFirst operation.name ++ operation.kind.suffix) operation.kind
      (lines operation.sourceWithFragments) parameters data ∈ items := by
  obtain ⟨operations, ofOperations, made⟩ := bind_eq_ok.mp made
  obtain ⟨inputs, _, made⟩ := bind_eq_ok.mp made
  cases made
  obtain ⟨item, listed, ofOperation⟩ := exists_of_mapM ofOperations member
  obtain ⟨parameters, _, ofOperation⟩ := bind_eq_ok.mp ofOperation
  obtain ⟨properties, _, ofOperation⟩ := bind_eq_ok.mp ofOperation
  obtain ⟨inner, _, ofOperation⟩ := bind_eq_ok.mp ofOperation
  cases ofOperation
  exact ⟨_, _, List.mem_append_left _ (List.mem_append_left _ listed)⟩

/-- The string that a source has for an operation is its text without the ends of the lines. -/
theorem exists_text_of_source {e : Emission} {text : String} (written : source e = .ok text)
    {operation : CompiledOperation} (member : operation ∈ e.compiled.operations)
    (filled : operation.sourceWithFragments ≠ "") :
    ∃ before indent after, text.toList = before ++
        (textHeading (upperFirst operation.name ++ operation.kind.suffix) operation.kind indent).toList ++ after ∧
      stringValue? after = some (Text.lines operation.sourceWithFragments.toList).flatten := by
  obtain ⟨items, made, done⟩ := bind_eq_ok.mp written
  cases done
  obtain ⟨parameters, data, listed⟩ := exists_item made member
  obtain ⟨earlier, later, rfl⟩ := List.append_of_mem listed
  -- The classes in front of this one add to the header, and what follows adds to this one.
  have begun : ((Writer.print {} generatedHeader).newlineIfNeeded.onNewline "import Apollo").output ≠ "" := by decide
  generalize (Writer.print {} generatedHeader).newlineIfNeeded.onNewline "import Apollo" = w at begun ⊢
  have started := output_ne_of_continues begun (Writer.continues_each continues_writeItem w earlier)
  unfold Writer.each at started ⊢
  rw [List.foldl_append, List.foldl_cons]
  generalize earlier.foldl writeItem w = w at started ⊢
  have onward (w : Writer) := (Writer.continues_each continues_writeItem w later).trans (Writer.continues_newline _)
  have single : ∀ line ∈ lines operation.sourceWithFragments, '\n' ∉ line.toList := by
    intro line member
    obtain ⟨characters, inLines, rfl⟩ := List.mem_map.mp member
    rw [String.toList_ofList]
    exact Text.not_mem_of_mem_lines inLines
  have filled : operation.sourceWithFragments.toList ≠ [] := by simpa using filled
  have divided : lines operation.sourceWithFragments ≠ [] := by simpa [lines] using Text.lines_ne_nil filled
  obtain ⟨before, indent, after, found, value⟩ := exists_text_of_writeItem started divided single _ operation.kind
    parameters data (onward _)
  refine ⟨before, indent, after, found, value.trans ?_⟩
  simp [lines, List.flatMap_map, List.flatMap_id']

end Swift

end QueryTypes
