import QueryTypes.Proofs.JoinedLines
import QueryTypes.Value.Printer

namespace QueryTypes.Token

section Words

theorem isNameChar_of_endsNumber {c : Char} (ends : endsNumber c = true) : isNameChar c = false := by
  have all : " \n\r\t,#!$:=@|&()[]\x7b\x7d".toList.all (fun c => !isNameChar c) = true := by decide
  simpa using List.all_eq_true.mp all c (by simpa [endsNumber] using ends)

theorem isWord_name {name : String} (isName : isName name = true) : IsWord name.toList (.name name) := by
  obtain ⟨c, word, spelled, start, every, reading⟩ := exists_read_name isName
  have other (d : Char) (hidden : isNameStart d = false) : c ≠ d := by
    rintro rfl
    simp [hidden] at start
  refine ⟨c, word, spelled, isIgnored_eq_false (.inr start), ?_, ?_⟩
  · rw [spelled]
    refine List.forall_mem_cons.mpr ⟨⟨other '\n' (by decide), other '\r' (by decide)⟩, ?_⟩
    intro d member
    have nameChar := List.all_eq_true.mp every d member
    constructor <;> rintro rfl <;> simp [isNameChar] at nameChar
  · intro rest ends
    exact ⟨c :: word, reading rest fun d first => isNameChar_of_endsNumber (ends d first)⟩

def IsNumeral : List Char → Prop
  | [] => False
  | c :: word => c ∈ "0123456789-".toList ∧ ∀ d ∈ c :: word, d ∈ "0123456789-.inf".toList

theorem IsNumeral.isWord {text : List Char} (numeral : IsNumeral text) : IsWord text (ofNumber text) := by
  cases text with
  | nil => exact numeral.elim
  | cons c word =>
    obtain ⟨first, every⟩ := numeral
    have starts : "0123456789-".toList.all (fun c => !isIgnored c && !isMark c && c != '.' && !isNameStart c &&
        (c.isDigit || c == '-')) = true := by decide
    have goesOn : "0123456789-.inf".toList.all (fun c => c != '\n' && c != '\r' && !endsNumber c) = true := by decide
    have start := List.all_eq_true.mp starts c first
    simp only [Bool.and_eq_true, Bool.not_eq_true', bne_iff_ne] at start
    obtain ⟨⟨⟨⟨shown, noMark⟩, noDot⟩, noName⟩, isNumber⟩ := start
    have onward (d : Char) (member : d ∈ c :: word) : (d ≠ '\n' ∧ d ≠ '\r') ∧ endsNumber d = false := by
      simpa using List.all_eq_true.mp goesOn d (every d member)
    refine ⟨c, word, rfl, shown, fun d member => (onward d member).1, ?_⟩
    intro rest ends
    have inside : ∀ d ∈ word, (!endsNumber d) = true := by
      intro d member
      rw [(onward d (List.mem_cons_of_mem c member)).2]
      rfl
    have taken : (word ++ rest).takeWhile (!endsNumber ·) = word ∧ (word ++ rest).dropWhile (!endsNumber ·) = rest := by
      rw [List.takeWhile_append_of_pos inside, List.dropWhile_append_of_pos inside]
      cases rest with
      | nil => simp
      | cons d rest => simp [ends d rfl]
    refine ⟨c :: word, ?_⟩
    simp only [read, noMark, noDot, noName, isNumber, taken.1, taken.2, Bool.false_eq_true, ↓reduceIte]

theorem mem_digits_of_isDigit {c : Char} (isDigit : c.isDigit = true) : c ∈ "0123456789".toList := by
  have bounds : 48 ≤ c.toNat ∧ c.toNat ≤ 57 := by
    simpa [Char.isDigit, UInt32.le_iff_toNat_le] using isDigit
  have known : c.toNat ∈ (List.range 10).map (48 + ·) := by
    simp only [List.mem_map, List.mem_range]
    exact ⟨c.toNat - 48, by omega, by omega⟩
  have each : ((List.range 10).map (48 + ·)).all (fun n => "0123456789".toList.contains (Char.ofNat n)) = true := by
    decide
  have member := List.all_eq_true.mp each c.toNat known
  rwa [Char.ofNat_toNat, List.contains_iff_mem] at member

theorem isNumeral_append {digits rest : List Char} (filled : digits ≠ [])
    (ofDigits : ∀ c ∈ digits, c.isDigit = true) (ofRest : ∀ c ∈ rest, c.isDigit = true ∨ c = '.') :
    IsNumeral (digits ++ rest) := by
  cases digits with
  | nil => exact absurd rfl filled
  | cons c digits =>
    have isStart : "0123456789".toList ⊆ "0123456789-".toList := by decide
    have isPart : "0123456789".toList ⊆ "0123456789-.inf".toList := by decide
    refine ⟨isStart (mem_digits_of_isDigit (ofDigits c List.mem_cons_self)), ?_⟩
    intro d member
    rcases List.mem_append.mp (show d ∈ (c :: digits) ++ rest from member) with inDigits | inRest
    · exact isPart (mem_digits_of_isDigit (ofDigits d inDigits))
    · rcases ofRest d inRest with digit | rfl
      · exact isPart (mem_digits_of_isDigit digit)
      · decide

theorem IsNumeral.negated {text : List Char} (numeral : IsNumeral text) : IsNumeral ('-' :: text) := by
  cases text with
  | nil => exact numeral.elim
  | cons c word => exact ⟨by decide, List.forall_mem_cons.mpr ⟨by decide, numeral.2⟩⟩

theorem isDigit_of_mem_toDigits {n : Nat} {c : Char} (member : c ∈ Nat.toDigits 10 n) : c.isDigit = true :=
  Nat.isDigit_of_mem_toDigits (by decide) (by decide) member

theorem isNumeral_toDigits (n : Nat) : IsNumeral (Nat.toDigits 10 n) := by
  have isDigit (c : Char) (member : c ∈ Nat.toDigits 10 n) : c.isDigit = true := isDigit_of_mem_toDigits member
  have digits := isNumeral_append Nat.toDigits_ne_nil isDigit (show ∀ c ∈ [], _ from nofun)
  rwa [List.append_nil] at digits

theorem toList_ofNat (n : Nat) : (toString (Int.ofNat n)).toList = Nat.toDigits 10 n := Nat.toList_repr

theorem toList_negSucc (n : Nat) : (toString (Int.negSucc n)).toList = '-' :: Nat.toDigits 10 (n + 1) := by
  simp [toString, Int.repr]

theorem isNumeral_int (value : Int) : IsNumeral (toString value).toList := by
  cases value with
  | ofNat n =>
    rw [toList_ofNat]
    exact isNumeral_toDigits n
  | negSucc n =>
    rw [toList_negSucc]
    exact (isNumeral_toDigits (n + 1)).negated

theorem head?_toDigits_ne {n : Nat} (positive : 0 < n) : (Nat.toDigits 10 n).head? ≠ some '0' := by
  induction n using Nat.strongRecOn with
  | ind n ih =>
    by_cases small : n < 10
    · have digits : (List.range 10).all (fun d => d == 0 || d.digitChar != '0') = true := by decide
      have digit := List.all_eq_true.mp digits n (List.mem_range.mpr small)
      rw [Nat.toDigits_of_lt_base small]
      simp_all [Nat.ne_of_gt positive]
    · have front := ih (n / 10) (by omega) (by omega)
      obtain ⟨c, rest, shown⟩ := List.exists_cons_of_ne_nil (show Nat.toDigits 10 (n / 10) ≠ [] from Nat.toDigits_ne_nil)
      rw [Nat.toDigits_of_base_le (by decide) (Nat.le_of_not_lt small), shown]
      rwa [shown] at front

theorem ofNumber_toDigits (n : Nat) :
    (n ≤ greatestInt → ofNumber (Nat.toDigits 10 n) = .int n) ∧
      (leastInt ≤ -n → ofNumber ('-' :: Nat.toDigits 10 n) = .int (-n)) := by
  have plain : (Nat.toDigits 10 n).any (fun c => c == '.' || isExponentMark c) = false := by
    have each : "0123456789".toList.all (fun c => !(c == '.' || isExponentMark c)) = true := by decide
    rw [List.any_eq_false]
    intro c member
    simpa using List.all_eq_true.mp each c (mem_digits_of_isDigit (isDigit_of_mem_toDigits member))
  have noSign : ((Nat.toDigits 10 n).head? == some '-') = false := by
    rw [beq_eq_false_iff_ne]
    intro starts
    exact absurd (isDigit_of_mem_toDigits (List.mem_of_head? starts)) (by decide)
  have digits : (Nat.toDigits 10 n == ['0'] || (!(Nat.toDigits 10 n).isEmpty && (Nat.toDigits 10 n).head? != some '0' &&
      (Nat.toDigits 10 n).all Char.isDigit)) = true := by
    rcases Nat.eq_zero_or_pos n with rfl | positive
    · decide
    · have all : (Nat.toDigits 10 n).all Char.isDigit = true := List.all_eq_true.mpr fun _ => isDigit_of_mem_toDigits
      simp [all, head?_toDigits_ne positive, Nat.toDigits_ne_nil]
  have value : digitsValue (Nat.toDigits 10 n) = n := Nat.ofDigitChars_toDigits (by decide) (by decide)
  refine ⟨fun fits => ?_, fun fits => ?_⟩
  · have whole : isWhole (Nat.toDigits 10 n) = true := by
      unfold isWhole
      rw [noSign]
      exact digits
    have same : wholeValue (Nat.toDigits 10 n) = n := by
      unfold wholeValue
      rw [noSign, value]
      rfl
    have least : leastInt ≤ n := by
      unfold leastInt
      omega
    unfold ofNumber
    rw [plain, if_neg (by decide), whole, same]
    simp [fits, least]
  · have whole : isWhole ('-' :: Nat.toDigits 10 n) = true := digits
    have same : wholeValue ('-' :: Nat.toDigits 10 n) = -n := by
      unfold wholeValue
      rw [List.tail_cons, value]
      rfl
    have greatest : -(n : Int) ≤ greatestInt := by
      unfold greatestInt
      omega
    unfold ofNumber
    rw [List.any_cons, plain, whole, same]
    simp [fits, greatest, isExponentMark]

theorem ofNumber_int {value : Int} (fits : leastInt ≤ value ∧ value ≤ greatestInt) :
    ofNumber (toString value).toList = .int value := by
  cases value with
  | ofNat n =>
    rw [toList_ofNat]
    exact (ofNumber_toDigits n).1 fits.2
  | negSucc n =>
    rw [toList_negSucc]
    exact (ofNumber_toDigits (n + 1)).2 fits.1

theorem isNumeral_positional (digits : Nat) (scale : Int) : IsNumeral (Binary64.positional digits scale).toList := by
  have isDigit (c : Char) (member : c ∈ Nat.toDigits 10 digits) : c.isDigit = true := isDigit_of_mem_toDigits member
  have zeros (count : Nat) (c : Char) (member : c ∈ List.replicate count '0') : c.isDigit = true := by
    rw [List.eq_of_mem_replicate member]
    rfl
  unfold Binary64.positional
  dsimp only
  split
  · rw [String.toList_ofList]
    exact isNumeral_append Nat.toDigits_ne_nil isDigit fun c member => .inl (zeros _ c member)
  split
  · rename_i places
    rw [String.toList_ofList]
    refine isNumeral_append ?_ (fun c member => isDigit c (List.mem_of_mem_take member)) ?_
    · intro none
      have length := congrArg List.length none
      simp only [List.length_take, List.length_nil] at length
      omega
    · intro c member
      rcases List.mem_cons.mp member with rfl | member
      · exact .inr rfl
      · exact .inl (isDigit c (List.mem_of_mem_drop member))
  · rw [String.toList_ofList]
    have places (count : Nat) (c : Char) (member : c ∈ '.' :: List.replicate count '0' ++ Nat.toDigits 10 digits) :
        c.isDigit = true ∨ c = '.' := by
      rcases List.mem_append.mp member with member | member
      · rcases List.mem_cons.mp member with rfl | member
        · exact .inr rfl
        · exact .inl (zeros _ c member)
      · exact .inl (isDigit c member)
    have whole (count : Nat) : IsNumeral (['0'] ++ ('.' :: List.replicate count '0' ++ Nat.toDigits 10 digits)) :=
      isNumeral_append (by simp) (by simp) (places count)
    exact whole _

/-- The token that a number with a point or an exponent is read as again. A positive number that is too
    great is a name. -/
def ofFloat : Binary64 → Token
  | .infinite false => .name "inf"
  | value => ofNumber value.toText.toList

theorem isWord_float (value : Binary64) : IsWord value.toText.toList (ofFloat value) := by
  cases value with
  | infinite negative =>
    cases negative with
    | false => exact isWord_name (show isName "inf" = true by decide)
    | true =>
      have letters : "-inf".toList ⊆ "0123456789-.inf".toList := by decide
      have numeral : IsNumeral "-inf".toList := ⟨by decide, fun _ member => letters member⟩
      exact numeral.isWord
  | finite negative mantissa exponent =>
    have numeral : IsNumeral (Binary64.finite negative mantissa exponent).toText.toList := by
      have signed {text : String} (numeral : IsNumeral text.toList) :
          IsNumeral ((if negative then "-" else "") ++ text).toList := by
        rw [String.toList_append]
        cases negative with
        | false => exact numeral
        | true => exact numeral.negated
      unfold Binary64.toText
      dsimp only
      split
      · exact signed (isNumeral_toDigits 0)
      · exact signed (isNumeral_positional _ _)
    exact numeral.isWord

end Words

section Strings

open Value
open Text (onOneLine onOneLine_append)

theorem escapeChar_cases (c : Char) :
    (∃ e ∈ "rnt\"\\".toList, escapeChar c = ['\\', e]) ∨
      (escapeChar c = [c] ∧ c ∉ "\r\n\"\\".toList) ∨
      ∃ figures, escapeChar c = '\\' :: 'u' :: figures ∧ 4 ≤ figures.length ∧ ∀ d ∈ figures, d.isDigit = true := by
  unfold escapeChar
  split
  · exact .inl ⟨'r', by decide, rfl⟩
  · exact .inl ⟨'n', by decide, rfl⟩
  · exact .inl ⟨'t', by decide, rfl⟩
  · exact .inl ⟨'"', by decide, rfl⟩
  · exact .inl ⟨'\\', by decide, rfl⟩
  · rename_i noReturn noFeed noTab noQuote noSlash
    split
    · refine .inr (.inl ⟨rfl, ?_⟩)
      simpa using ⟨noReturn, noFeed, noQuote, noSlash⟩
    · refine .inr (.inr ⟨_, rfl, ?_, ?_⟩)
      · simp only [List.length_append, List.length_replicate]
        omega
      · intro d member
        rcases List.mem_append.mp member with zero | digit
        · rw [List.eq_of_mem_replicate zero]
          rfl
        · exact Nat.isDigit_of_mem_toDigits (by decide) (by decide) digit

theorem splitQuoted_cons {c : Char} (plain : c ∉ ['\n', '"', '\\']) (text : List Char) :
    splitQuoted (c :: text) = (splitQuoted text).map fun (body, rest) => (c :: body, rest) := by
  simp only [List.mem_cons, List.not_mem_nil, or_false, not_or] at plain
  rw [splitQuoted]
  · exact plain.2.1
  · exact plain.1
  · exact fun _ _ isSlash => absurd isSlash plain.2.2

theorem splitQuoted_append {figures : List Char} (plain : ∀ c ∈ figures, c ∉ ['\n', '"', '\\']) (text : List Char) :
    splitQuoted (figures ++ text) = (splitQuoted text).map fun (body, rest) => (figures ++ body, rest) := by
  induction figures with
  | nil => simp
  | cons c figures ih =>
    rw [List.forall_mem_cons] at plain
    rw [List.cons_append, splitQuoted_cons plain.1, ih plain.2, Option.map_map]
    rfl

theorem unescape_cons {c : Char} (plain : c ≠ '\\') (text : List Char) :
    unescape (c :: text) = (unescape text).map (c :: ·) := by
  rw [unescape]
  · rintro _ _ _ _ _ isSlash
    exact absurd isSlash plain
  · rintro _ _ isSlash
    exact absurd isSlash plain
  · rintro isSlash
    exact absurd isSlash plain

theorem exists_hexDigit {c : Char} (isDigit : c.isDigit = true) : ∃ n ≤ 9, hexDigit? c = some n := by
  have bounds : 48 ≤ c.toNat ∧ c.toNat ≤ 57 := by
    simpa [Char.isDigit, UInt32.le_iff_toNat_le] using isDigit
  refine ⟨c.toNat - '0'.toNat, ?_, if_pos isDigit⟩
  have zero : '0'.toNat = 48 := rfl
  omega

theorem exists_codePoint {a b c d : Char} (digits : ∀ figure ∈ [a, b, c, d], figure.isDigit = true) :
    ∃ value, codePoint? [a, b, c, d] = some value := by
  simp only [List.mem_cons, List.not_mem_nil, or_false, forall_eq_or_imp, forall_eq] at digits
  obtain ⟨first, second, third, fourth⟩ := digits
  obtain ⟨i, _, ofFirst⟩ := exists_hexDigit first
  obtain ⟨j, _, ofSecond⟩ := exists_hexDigit second
  obtain ⟨k, _, ofThird⟩ := exists_hexDigit third
  obtain ⟨l, _, ofFourth⟩ := exists_hexDigit fourth
  have noSign : a ≠ '+' := by
    rintro rfl
    exact absurd first (by decide)
  have isValid : (16 * (16 * (16 * i + j) + k) + l).isValidChar := .inl (by omega)
  refine ⟨Char.ofNat (16 * (16 * (16 * i + j) + k) + l), ?_⟩
  simp [codePoint?, hexValue?, noSign, ofFirst, ofSecond, ofThird, ofFourth, isValid]

theorem unescape_append {figures : List Char} (plain : ∀ c ∈ figures, c ≠ '\\') (text : List Char) :
    unescape (figures ++ text) = (unescape text).map (figures ++ ·) := by
  induction figures with
  | nil => simp
  | cons c figures ih =>
    rw [List.forall_mem_cons] at plain
    rw [List.cons_append, unescape_cons plain.1, ih plain.2, Option.map_map]
    rfl

theorem not_mem_of_isDigit {c : Char} (isDigit : c.isDigit = true) : c ∉ ['\n', '"', '\\'] := by
  simp only [List.mem_cons, List.not_mem_nil, or_false, not_or]
  refine ⟨?_, ?_, ?_⟩ <;> rintro rfl <;> exact absurd isDigit (by decide)

/-- A text that is escaped ends at the quote behind it. -/
theorem splitQuoted_escaped (text rest : List Char) :
    splitQuoted (text.flatMap escapeChar ++ '"' :: rest) = some (text.flatMap escapeChar, rest) := by
  induction text with
  | nil => rfl
  | cons c text ih =>
    rw [List.flatMap_cons, List.append_assoc]
    rcases escapeChar_cases c with ⟨e, member, written⟩ | ⟨written, plain⟩ | ⟨figures, written, _, digits⟩
    · have escaped : splitQuoted ('\\' :: e :: (text.flatMap escapeChar ++ '"' :: rest)) =
          (splitQuoted (text.flatMap escapeChar ++ '"' :: rest)).map fun (body, rest) => ('\\' :: e :: body, rest) := by
        apply if_neg
        rintro rfl
        exact absurd member (by decide)
      rw [written]
      exact escaped.trans (by rw [ih]; rfl)
    · rw [written, List.cons_append, List.nil_append, splitQuoted_cons, ih]
      · rfl
      · intro member
        apply plain
        rcases List.mem_cons.mp member with rfl | member
        · decide
        · exact List.mem_cons_of_mem _ (List.mem_cons_of_mem _ member)
    · have escaped (after : List Char) : splitQuoted ('\\' :: 'u' :: after) =
          (splitQuoted after).map fun (body, rest) => ('\\' :: 'u' :: body, rest) := rfl
      rw [written, List.cons_append, List.cons_append, escaped,
        splitQuoted_append fun d member => not_mem_of_isDigit (digits d member), ih]
      rfl

theorem exists_unescape_escaped (text : List Char) : ∃ value, unescape (text.flatMap escapeChar) = some value := by
  induction text with
  | nil => exact ⟨[], rfl⟩
  | cons c text ih =>
    obtain ⟨value, others⟩ := ih
    rw [List.flatMap_cons]
    rcases escapeChar_cases c with ⟨e, member, written⟩ | ⟨written, plain⟩ | ⟨figures, written, enough, digits⟩
    · have escaped : ∃ d, unescape ('\\' :: e :: text.flatMap escapeChar) =
          (unescape (text.flatMap escapeChar)).bind fun value => some (d :: value) := by
        simp only [String.reduceToList, List.mem_cons, List.not_mem_nil, or_false] at member
        rcases member with rfl | rfl | rfl | rfl | rfl
        all_goals exact ⟨_, rfl⟩
      obtain ⟨d, escaped⟩ := escaped
      rw [others] at escaped
      rw [written]
      exact ⟨_, escaped⟩
    · rw [written, List.cons_append, List.nil_append, unescape_cons, others]
      · exact ⟨_, rfl⟩
      · rintro rfl
        exact plain (by decide)
    · match figures, enough with
      | a :: b :: c :: d :: figures, _ =>
        have first : ∀ figure ∈ [a, b, c, d], figure.isDigit = true := fun figure member =>
          digits figure (List.mem_append_left figures member)
        obtain ⟨code, ofFirst⟩ := exists_codePoint first
        have escaped (after : List Char) : unescape ('\\' :: 'u' :: a :: b :: c :: d :: after) =
            (codePoint? [a, b, c, d]).bind fun first => (unescape after).bind fun value => some (first :: value) := rfl
        have plain (figure : Char) (member : figure ∈ figures) : figure ≠ '\\' := by
          rintro rfl
          exact absurd (digits _ (List.mem_append_right [a, b, c, d] member)) (by decide)
        have whole := escaped (figures ++ text.flatMap escapeChar)
        rw [ofFirst, unescape_append plain, others] at whole
        rw [written]
        exact ⟨_, whole⟩

def requoted (text : String) : String := String.ofList ((unescape (text.toList.flatMap escapeChar)).getD [])

theorem head?_escaped_ne (text : List Char) : (text.flatMap escapeChar).head? ≠ some '"' := by
  cases text with
  | nil => nofun
  | cons c text =>
    rw [List.flatMap_cons]
    rcases escapeChar_cases c with ⟨e, _, written⟩ | ⟨written, plain⟩ | ⟨figures, written, _⟩
    · rw [written]
      simp
    · rw [written, List.cons_append, List.head?_cons]
      rintro ⟨⟩
      exact plain (by decide)
    · rw [written]
      simp

/-- A quote that is not the first of three starts a string on one line. -/
theorem read_quoted {text body value after : List Char} (single : ∀ more, text ≠ '"' :: '"' :: more)
    (ends : splitQuoted text = some (body, after)) (unescaped : unescape body = some value) :
    read '"' text = ⟨.string (String.ofList value), '"' :: body ++ ['"'], after⟩ := by
  unfold read
  rw [if_neg (by decide), if_neg (by decide), if_neg (by decide), if_neg (by decide), if_pos rfl]
  split
  · rename_i more
    exact absurd rfl (single more)
  · simp only [ends, unescaped]

theorem isWord_quote (text : String) : IsWord (quote text).toList (.string (requoted text)) := by
  unfold quote
  rw [String.toList_ofList]
  refine ⟨'"', text.toList.flatMap escapeChar ++ ['"'], rfl, by decide, ?_, ?_⟩
  · have plain (d : Char) (member : d ∈ text.toList.flatMap escapeChar) : d ≠ '\n' ∧ d ≠ '\r' := by
      obtain ⟨c, _, inEscape⟩ := List.mem_flatMap.mp member
      rcases escapeChar_cases c with ⟨e, listed, written⟩ | ⟨written, plain⟩ | ⟨figures, written, _, digits⟩
      · rw [written] at inEscape
        have others : "rnt\"\\".toList.all (fun c => c != '\n' && c != '\r') = true := by decide
        have known : d ∈ "rnt\"\\".toList := by
          rcases List.mem_cons.mp inEscape with rfl | last
          · decide
          · rw [List.mem_singleton.mp last]
            exact listed
        simpa using List.all_eq_true.mp others d known
      · rw [written, List.mem_singleton] at inEscape
        subst inEscape
        constructor <;> rintro rfl <;> exact plain (by decide)
      · rw [written] at inEscape
        simp only [List.mem_cons] at inEscape
        rcases inEscape with rfl | rfl | inFigures
        · decide
        · decide
        · have isDigit := digits d inFigures
          constructor <;> rintro rfl <;> exact absurd isDigit (by decide)
    intro d member
    rcases List.mem_append.mp member with inside | last
    · rcases List.mem_cons.mp inside with rfl | inside
      · decide
      · exact plain d inside
    · rw [List.mem_singleton.mp last]
      decide
  · intro rest ends
    obtain ⟨value, unescaped⟩ := exists_unescape_escaped text.toList
    have spelled : requoted text = String.ofList value := by rw [requoted, unescaped]; rfl
    rw [spelled, List.append_assoc]
    refine ⟨_, read_quoted ?_ (splitQuoted_escaped _ rest) unescaped⟩
    intro more same
    cases body : text.toList.flatMap escapeChar with
    | nil =>
      rw [body] at same
      cases rest with
      | nil => cases same
      | cons c rest =>
        cases same
        exact absurd (ends '"' rfl) (by decide)
    | cons c others =>
      rw [body] at same
      have first := head?_escaped_ne text.toList
      rw [body] at first
      exact first (congrArg List.head? same)

theorem dropBlankEnds_of_blank {lines : List (List Char)} (blank : ∀ line ∈ lines, line.all Text.isBlank = true) :
    dropBlankEnds lines = [] := by
  have all : lines.dropWhile (fun line => line.all Text.isBlank) = [] := by
    have none : (lines ++ []).dropWhile (fun line : List Char => line.all Text.isBlank) = [] :=
      List.dropWhile_append_of_pos blank
    rwa [List.append_nil] at none
  simp only [dropBlankEnds, all, List.reverse_nil, List.dropWhile_nil]

theorem blockValue_of_blank {body : List Char} (blank : ∀ c ∈ body, Text.isBlank c = true) : blockValue body = [] := by
  have lines (line : List Char) (listed : line ∈ Text.lines body) : line.all Text.isBlank = true :=
    List.all_eq_true.mpr fun c member => blank c (Text.mem_of_mem_lines listed member)
  unfold blockValue
  split
  · rfl
  · rename_i first rest spelled
    rw [spelled, List.forall_mem_cons] at lines
    have dropped (count : Option Nat) : ∀ line ∈ first :: rest.map (dropIndent count), line.all Text.isBlank = true := by
      rw [List.forall_mem_cons]
      refine ⟨lines.1, ?_⟩
      intro line listed
      obtain ⟨whole, inRest, rfl⟩ := List.mem_map.mp listed
      have own := List.all_eq_true.mp (lines.2 whole inRest)
      apply List.all_eq_true.mpr
      intro c member
      unfold dropIndent at member
      split at member
      · exact own c member
      · split at member
        · exact own c (List.mem_of_mem_drop member)
        · exact own c member
    simp only [dropBlankEnds_of_blank (dropped _)]
    rfl

theorem splitBlock_of_blank {body : List Char} (blank : ∀ c ∈ body, c = '\n' ∨ c = ' ') (rest : List Char) :
    splitBlock false (body ++ '"' :: '"' :: '"' :: rest) = some (body, rest) := by
  induction body with
  | nil => rfl
  | cons c body ih =>
    rw [List.forall_mem_cons] at blank
    have onward : splitBlock false (c :: (body ++ '"' :: '"' :: '"' :: rest)) =
        (splitBlock false (body ++ '"' :: '"' :: '"' :: rest)).map fun (body, rest) => (c :: body, rest) := by
      rcases blank.1 with rfl | rfl <;> rfl
    rw [List.cons_append, onward, ih blank.2]
    rfl

theorem read_block_of_blank {body : List Char} (blank : ∀ c ∈ body, c = '\n' ∨ c = ' ') (rest : List Char) :
    ∃ written, read '"' ('"' :: '"' :: body ++ ['"', '"', '"'] ++ rest) = ⟨.string "", written, rest⟩ := by
  have isBlank (c : Char) (member : c ∈ body) : Text.isBlank c = true := by
    rcases blank c member with rfl | rfl <;> decide
  refine ⟨['"', '"', '"'] ++ body ++ ['"', '"', '"'], ?_⟩
  unfold read
  rw [if_neg (by decide), if_neg (by decide), if_neg (by decide), if_neg (by decide), if_pos rfl]
  simp only [List.cons_append, List.append_assoc, List.nil_append, splitBlock_of_blank blank,
    blockValue_of_blank isBlank]

theorem joinable_block {body : List Char} (blank : ∀ c ∈ body, c = '\n' ∨ c = ' ') :
    Joinable ('"' :: '"' :: '"' :: body ++ ['"', '"', '"']) [.string ""] := by
  intro rest more bounded seamless
  have joined : ∀ c ∈ onOneLine body, c = '\n' ∨ c = ' ' := fun c member => blank c (List.mem_filter.mp member).1
  have whole : onOneLine ('"' :: '"' :: '"' :: body ++ ['"', '"', '"']) =
      '"' :: ('"' :: '"' :: onOneLine body ++ ['"', '"', '"']) := by
    rw [onOneLine_append]
    rfl
  refine .of_read (by decide) ?_ whole (read_block_of_blank blank rest) (read_block_of_blank joined _) seamless
  intro member
  simp at member
  rcases blank _ member with isFeed | isSpace
  · exact absurd isFeed (by decide)
  · exact absurd isSpace (by decide)

end Strings

end QueryTypes.Token

namespace QueryTypes.Value

open Token

def spansLines (text : String) : Bool :=
  text.toList.contains '\n' && text.toList.all fun c => c == '\n' || c == '\r' || c == '\t' || isPlain c

/-- A string that is written over several lines is blank. -/
def StaysTogether (text : String) : Prop := spansLines text = true → text.toList.all Text.isBlank = true

/-- The value of a string that was written, if it is written on one line or blank. -/
def rewritten (text : String) : String := if spansLines text then "" else requoted text

theorem exists_body_of_blank (indent : Nat) {text : String} (blank : ∀ c ∈ text.toList, Text.isBlank c = true) :
    ∃ body, (block indent text).toList = '"' :: '"' :: '"' :: body ++ ['"', '"', '"'] ∧
      ∀ c ∈ body, c = '\n' ∨ c = ' ' := by
  have lines (line : List Char) (listed : line ∈ Text.lines text.toList) : line.all Text.isBlank = true :=
    List.all_eq_true.mpr fun c member => blank c (Text.mem_of_mem_lines listed member)
  have empty : (Text.lines text.toList).map (fun line =>
      (if line.all Text.isBlank then "" else spaces (indent + 2) ++ String.ofList (escapeBlock line)) ++ "\n") =
      (Text.lines text.toList).map fun _ => "\n" :=
    List.map_congr_left fun line listed => by rw [if_pos (lines line listed)]; rfl
  refine ⟨'\n' :: (Text.lines text.toList).flatMap (fun _ => ['\n']) ++ List.replicate indent ' ', ?_, ?_⟩
  · unfold block
    dsimp only
    rw [empty]
    have feeds : (String.join ((Text.lines text.toList).map fun _ => "\n")).toList =
        (Text.lines text.toList).flatMap fun _ => ['\n'] := by
      rw [String.toList_join, List.flatMap_map]
      rfl
    simp only [String.toList_append, feeds, spaces, String.toList_ofList]
    simp
  · intro c member
    rcases List.mem_append.mp member with feed | space
    · rcases List.mem_cons.mp feed with rfl | feed
      · exact .inl rfl
      · obtain ⟨_, _, isFeed⟩ := List.mem_flatMap.mp feed
        exact .inl (List.mem_singleton.mp isFeed)
    · exact .inr (List.eq_of_mem_replicate space)

theorem joinable_stringText (indent : Nat) {text : String} (together : StaysTogether text) :
    Joinable (stringText indent text).toList [.string (rewritten text)] := by
  have either : stringText indent text = if spansLines text then block indent text else quote text := rfl
  rw [either, rewritten]
  split
  · rename_i spans
    obtain ⟨body, written, blank⟩ := exists_body_of_blank indent (List.all_eq_true.mp (together spans))
    rw [written]
    exact joinable_block blank
  · exact (isWord_quote text).joinable

end QueryTypes.Value
