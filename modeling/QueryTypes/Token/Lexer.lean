import QueryTypes.Token.Number
import QueryTypes.Token.Quoted

namespace QueryTypes.Token

/-- The text and the place after what is ignored between tokens: white space, commas, byte order
    marks and comments. A tab counts eight columns. A comment ends with its line, and one that ends
    the text is not counted. -/
def skipIgnored (inComment : Bool) (position : Position) : List Char → List Char × Position
  | [] => ([], position)
  | c :: rest =>
    if inComment then
      if c = '\n' ∨ c = '\r' then skipIgnored false position.nextLine rest
      else skipIgnored true position rest
    else if c = '﻿' ∨ c = '\r' then skipIgnored false position rest
    else if c = '\t' then skipIgnored false (position.right 8) rest
    else if c = ' ' ∨ c = ',' then skipIgnored false (position.right 1) rest
    else if c = '\n' then skipIgnored false position.nextLine rest
    else if c = '#' then skipIgnored true position rest
    else (c :: rest, position)

structure Reading where
  token : Token
  written : List Char
  rest : List Char

def read (c : Char) (rest : List Char) : Reading :=
  if isMark c then ⟨.mark c, [c], rest⟩
  else if c = '.' then
    match rest with
    | '.' :: '.' :: rest => ⟨.ellipsis, ['.', '.', '.'], rest⟩
    | _ => ⟨.malformed, [c], rest⟩
  else if isNameStart c then
    let word := c :: rest.takeWhile isNameChar
    ⟨.name (String.ofList word), word, rest.dropWhile isNameChar⟩
  else if c.isDigit || c == '-' then
    let word := c :: rest.takeWhile (!endsNumber ·)
    ⟨ofNumber word, word, rest.dropWhile (!endsNumber ·)⟩
  else if c = '"' then
    match rest with
    | '"' :: '"' :: text =>
      match splitBlock false text with
      | some (body, after) =>
        ⟨.string (String.ofList (blockValue body)),
          ['"', '"', '"'] ++ body ++ ['"', '"', '"'], after⟩
      | none => ⟨.malformed, ['"', '"', '"'], text⟩
    | _ =>
      match splitQuoted rest with
      | some (body, after) =>
        match unescape body with
        | some value => ⟨.string (String.ofList value), '"' :: body ++ ['"'], after⟩
        | none => ⟨.malformed, '"' :: body ++ ['"'], after⟩
      | none => ⟨.malformed, [c], rest⟩
  else ⟨.malformed, [c], rest⟩

theorem length_skipIgnored_le (inComment : Bool) (position : Position) (text : List Char) :
    (skipIgnored inComment position text).1.length ≤ text.length := by
  induction text generalizing inComment position with
  | nil => simp [skipIgnored]
  | cons c rest ih =>
    simp only [skipIgnored]
    repeat' split
    all_goals first
      | exact Nat.le_refl _
      | exact Nat.le_succ_of_le (ih _ _)

theorem length_splitQuoted_le {text body after : List Char}
    (h : splitQuoted text = some (body, after)) : after.length ≤ text.length := by
  fun_induction splitQuoted text generalizing body after with
  | case1 => cases h
  | case2 rest => cases h; simp
  | case3 => cases h
  | case4 => cases h
  | case5 c rest _ ih =>
    simp only [Option.map_eq_some_iff, Prod.mk.injEq, Prod.exists] at h
    obtain ⟨_, _, split, _, rfl⟩ := h
    have := ih split
    simp only [List.length_cons]; omega
  | case6 c rest _ _ _ ih =>
    simp only [Option.map_eq_some_iff, Prod.mk.injEq, Prod.exists] at h
    obtain ⟨_, _, split, _, rfl⟩ := h
    have := ih split
    simp only [List.length_cons]; omega

theorem length_splitBlock_le {escaped : Bool} {text body after : List Char}
    (h : splitBlock escaped text = some (body, after)) : after.length ≤ text.length := by
  fun_induction splitBlock escaped text generalizing body after with
  | case1 => cases h
  | case2 rest ih =>
    simp only [Option.map_eq_some_iff, Prod.mk.injEq, Prod.exists] at h
    obtain ⟨_, _, split, _, rfl⟩ := h
    have := ih split
    simp only [List.length_cons]; omega
  | case3 => cases h; simp only [List.length_cons]; omega
  | case4 _ c rest _ ih =>
    simp only [Option.map_eq_some_iff, Prod.mk.injEq, Prod.exists] at h
    obtain ⟨_, _, split, _, rfl⟩ := h
    have := ih split
    simp only [List.length_cons]; omega

theorem length_dropWhile_le (p : Char → Bool) (text : List Char) :
    (text.dropWhile p).length ≤ text.length := (List.dropWhile_suffix p).length_le

/-- Reading a token uses up its first character at least. -/
theorem length_read_le (c : Char) (rest : List Char) : (read c rest).rest.length ≤ rest.length := by
  unfold read
  split
  · exact Nat.le_refl _
  split
  · split
    · simp only [List.length_cons]; omega
    · exact Nat.le_refl _
  split
  · exact length_dropWhile_le _ _
  split
  · exact length_dropWhile_le _ _
  split
  · split
    · split
      · rename_i split
        have := length_splitBlock_le split
        simp only [List.length_cons]; omega
      · simp only [List.length_cons]; omega
    · split
      · rename_i split
        have := length_splitQuoted_le split
        split <;> exact this
      · exact Nat.le_refl _
  · exact Nat.le_refl _

/-- The lexemes of a text that starts at `position`, and the place of its end. Nothing is read
    behind a malformed token. -/
def lexemes (position : Position) (text : List Char) : List Lexeme × Position :=
  match _skipped : skipIgnored false position text with
  | ([], last) => ([], last)
  | (c :: rest, place) =>
    match _reading : read c rest with
    | ⟨.malformed, _, _⟩ => ([⟨place, .malformed⟩], place)
    | ⟨token, written, after⟩ =>
      let (tail, last) := lexemes (place.after written) after
      (⟨place, token⟩ :: tail, last)
termination_by text.length
decreasing_by
  have skip := length_skipIgnored_le false position text
  have taken := length_read_le c rest
  rw [_skipped] at skip
  rw [_reading] at taken
  simp only [List.length_cons] at skip
  simp only at taken
  omega

end QueryTypes.Token
