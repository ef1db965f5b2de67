import QueryTypes.Rule

namespace QueryTypes.Token

def WellFormed : Token → Prop
  | .name text => isName text = true
  | .int value => leastInt ≤ value ∧ value ≤ greatestInt
  | _ => True

theorem wellFormed_ofNumber (text : List Char) : (ofNumber text).WellFormed := by
  unfold ofNumber
  split
  · split <;> trivial
  · split
    · rename_i fits
      simp only [Bool.and_eq_true, decide_eq_true_eq] at fits
      exact ⟨fits.1.2, fits.2⟩
    · trivial

theorem wellFormed_read (c : Char) (rest : List Char) : (read c rest).token.WellFormed := by
  unfold read
  split
  · trivial
  split
  · split <;> trivial
  split
  · rename_i start
    change isName (String.ofList (c :: rest.takeWhile isNameChar)) = true
    have word : (rest.takeWhile isNameChar).all isNameChar = true := List.all_takeWhile
    simp [isName, start, word]
  split
  · exact wellFormed_ofNumber _
  split
  · split
    · split <;> trivial
    · split
      · split <;> trivial
      · trivial
  · trivial

section Steps

variable {position place last : Position} {text rest written after : List Char} {c : Char} {token : Token}

theorem lexemes_of_end (skipped : skipIgnored false position text = ([], last)) :
    lexemes position text = ([], last) := by
  rw [lexemes]
  split
  · simp_all
  · simp_all

theorem lexemes_of_malformed (skipped : skipIgnored false position text = (c :: rest, place))
    (reading : read c rest = ⟨.malformed, written, after⟩) :
    lexemes position text = ([⟨place, .malformed⟩], place) := by
  rw [lexemes]
  split
  · simp_all
  · rename_i found
    rw [skipped] at found
    cases found
    split
    · rfl
    · simp_all

theorem lexemes_of_read (skipped : skipIgnored false position text = (c :: rest, place))
    (reading : read c rest = ⟨token, written, after⟩) (sound : token ≠ .malformed) :
    lexemes position text = (⟨place, token⟩ :: (lexemes (place.after written) after).1,
      (lexemes (place.after written) after).2) := by
  rw [lexemes]
  split
  · simp_all
  · rename_i found
    rw [skipped] at found
    cases found
    split
    · simp_all
    · rename_i also
      rw [reading] at also
      cases also
      rfl

/-- What is ignored in front of a text changes nothing but places. -/
theorem lexemes_congr {other : List Char} {elsewhere : Position}
    (same : skipIgnored false position text = skipIgnored false elsewhere other) :
    lexemes position text = lexemes elsewhere other := by
  match skipped : skipIgnored false position text with
  | ([], last) => rw [lexemes_of_end skipped, lexemes_of_end (same ▸ skipped)]
  | (c :: rest, place) =>
    match reading : read c rest with
    | ⟨token, written, after⟩ =>
      by_cases malformed : token = .malformed
      · rw [malformed] at reading
        rw [lexemes_of_malformed skipped reading, lexemes_of_malformed (same ▸ skipped) reading]
      · have other := lexemes_of_read (same ▸ skipped) reading malformed
        rw [lexemes_of_read skipped reading malformed, other]

end Steps

theorem wellFormed_lexemes (position : Position) (text : List Char) :
    ∀ lexeme ∈ (lexemes position text).1, lexeme.token.WellFormed := by
  induction position, text using lexemes.induct with
  | case1 position text last skipped =>
    rw [lexemes_of_end skipped]
    exact nofun
  | case2 position text c rest place skipped written after reading =>
    rw [lexemes_of_malformed skipped reading]
    intro lexeme member
    rw [List.mem_singleton.mp member]
    trivial
  | case3 position text c rest place skipped token written after sound reading _ _ _ ih =>
    rw [lexemes_of_read skipped reading sound]
    have own : token.WellFormed := by
      have known := wellFormed_read c rest
      rwa [reading] at known
    exact List.forall_mem_cons.mpr ⟨own, ih⟩

section Lexes

/-- Wherever it stands, the text is read as these tokens. -/
def Lexes (text : List Char) (tokens : List Token) : Prop :=
  ∀ position, (lexemes position text).1.map Lexeme.token = tokens

def isIgnored (c : Char) : Bool := "\uFEFF\r\t ,\n#".toList.contains c

def Boundary (text : List Char) : Prop := ∀ c ∈ text.head?, isNameChar c = false

variable {text rest word : List Char} {tokens more : List Token} {c : Char}

theorem skipIgnored_of_not_isIgnored (shown : isIgnored c = false) (position : Position) :
    skipIgnored false position (c :: rest) = (c :: rest, position) := by
  have other : c ∉ ['\uFEFF', '\r', '\t', ' ', ',', '\n', '#'] := by simpa [isIgnored] using shown
  simp only [List.mem_cons, List.not_mem_nil, or_false, not_or] at other
  obtain ⟨mark, feed, tab, blank, comma, line, comment⟩ := other
  simp [skipIgnored, mark, feed, tab, blank, comma, line, comment]

theorem isIgnored_eq_false (shown : isMark c = true ∨ isNameStart c = true) : isIgnored c = false := by
  have hidden : "\uFEFF\r\t ,\n#".toList.all (fun c => !isMark c && !isNameStart c) = true := by decide
  cases ignored : isIgnored c with
  | false => rfl
  | true =>
    have other := List.all_eq_true.mp hidden c (by simpa [isIgnored] using ignored)
    rcases shown with marked | start
    · simp [marked] at other
    · simp [start] at other

theorem Lexes.of_sound {token : Token} {written after : List Char} (shown : isIgnored c = false)
    (reading : Token.read c rest = ⟨token, written, after⟩) (sound : token ≠ .malformed)
    (read : Lexes after more) : Lexes (c :: rest) (token :: more) := by
  intro position
  rw [lexemes_of_read (skipIgnored_of_not_isIgnored shown position) reading sound, List.map_cons, read]

theorem Lexes.nil : Lexes [] [] := fun _ => by rw [lexemes_of_end rfl]; rfl

theorem Lexes.separator (between : c = ' ' ∨ c = ',') (read : Lexes rest more) : Lexes (c :: rest) more := by
  intro position
  have same : lexemes position (c :: rest) = lexemes (position.right 1) rest := by
    rcases between with rfl | rfl <;> exact lexemes_congr rfl
  rw [same]
  exact read _

theorem Lexes.mark (isMark : isMark c = true) (read : Lexes rest more) :
    Lexes (c :: rest) (.mark c :: more) := by
  have reading : Token.read c rest = ⟨.mark c, [c], rest⟩ := if_pos isMark
  exact .of_sound (isIgnored_eq_false (.inl isMark)) reading (by simp) read

theorem isMark_of_isNameStart (start : isNameStart c = true) : isMark c = false := by
  have marks : "()[]\x7b\x7d!$:=@|&".toList.all (fun c => !isNameStart c) = true := by decide
  cases marked : isMark c with
  | false => rfl
  | true =>
    have other := List.all_eq_true.mp marks c (by simpa [isMark] using marked)
    simp [start] at other

theorem takeWhile_of_boundary (every : word.all isNameChar = true) (ends : Boundary rest) :
    (word ++ rest).takeWhile isNameChar = word ∧ (word ++ rest).dropWhile isNameChar = rest := by
  have every := List.all_eq_true.mp every
  rw [List.takeWhile_append_of_pos every, List.dropWhile_append_of_pos every]
  cases rest with
  | nil => simp
  | cons c rest =>
    have stops : isNameChar c = false := ends c rfl
    simp [stops]

theorem exists_read_name {name : String} (isName : isName name = true) :
    ∃ c word, name.toList = c :: word ∧ isNameStart c = true ∧ word.all isNameChar = true ∧
      ∀ rest, Boundary rest → Token.read c (word ++ rest) = ⟨.name name, c :: word, rest⟩ := by
  unfold QueryTypes.isName at isName
  split at isName
  · cases isName
  · rename_i c word spelled
    obtain ⟨start, every⟩ := Bool.and_eq_true_iff.mp isName
    refine ⟨c, word, spelled, start, every, ?_⟩
    intro rest ends
    obtain ⟨taken, left⟩ := takeWhile_of_boundary every ends
    have noDots : c ≠ '.' := by
      rintro rfl
      exact absurd start (by decide)
    have whole : String.ofList (c :: word) = name := by rw [← spelled, String.ofList_toList]
    simp [Token.read, isMark_of_isNameStart start, noDots, start, taken, left, whole]

theorem Lexes.name {name : String} (isName : isName name = true) (ends : Boundary rest)
    (read : Lexes rest more) : Lexes (name.toList ++ rest) (.name name :: more) := by
  obtain ⟨c, word, spelled, start, _, reading⟩ := exists_read_name isName
  rw [spelled]
  exact .of_sound (isIgnored_eq_false (.inr start)) (reading rest ends) (by simp) read

/-- In front of any text that does not go on with a name, the text is read as these tokens. -/
def Spells (text : List Char) (tokens : List Token) : Prop :=
  ∀ rest more, Boundary rest → Lexes rest more → Lexes (text ++ rest) (tokens ++ more)

end Lexes

end QueryTypes.Token
