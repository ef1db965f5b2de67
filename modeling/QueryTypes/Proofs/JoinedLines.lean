import QueryTypes.Proofs.Lexing
import QueryTypes.Proofs.TextLines

namespace QueryTypes.Token

open Text (onOneLine onOneLine_append onOneLine_cons onOneLine_of_not_mem)

def upToFault : List Token → List Token
  | [] => []
  | .malformed :: _ => [.malformed]
  | token :: rest => token :: upToFault rest

theorem upToFault_cons {token : Token} (sound : token ≠ .malformed) (rest : List Token) :
    upToFault (token :: rest) = token :: upToFault rest := by
  cases token <;> first | rfl | exact absurd rfl sound

theorem upToFault_of_not_mem {tokens : List Token} (sound : .malformed ∉ tokens) : upToFault tokens = tokens := by
  induction tokens with
  | nil => rfl
  | cons token tokens ih =>
    simp only [List.mem_cons, not_or] at sound
    rw [upToFault_cons (Ne.symm sound.1), ih sound.2]

section Lexes

variable {rest after : List Char} {tokens : List Token}

theorem Lexes.newline (read : Lexes rest tokens) : Lexes ('\n' :: rest) tokens := by
  intro position
  have skipped : lexemes position ('\n' :: rest) = lexemes position.nextLine rest := lexemes_congr rfl
  rw [skipped]
  exact read _

theorem Lexes.of_read {c : Char} {token : Token} {written : List Char} (shown : isIgnored c = false)
    (reading : Token.read c rest = ⟨token, written, after⟩) (read : Lexes after (upToFault tokens)) :
    Lexes (c :: rest) (upToFault (token :: tokens)) := by
  by_cases malformed : token = .malformed
  · subst malformed
    intro position
    rw [lexemes_of_malformed (skipIgnored_of_not_isIgnored shown position) reading]
    rfl
  · rw [upToFault_cons malformed]
    exact .of_sound shown reading malformed read

end Lexes

/-- The text is read as the tokens, also if its lines are joined. -/
structure Seamless (text : List Char) (tokens : List Token) : Prop where
  clean : '\r' ∉ text
  read : Lexes text (upToFault tokens)
  joined : Lexes (onOneLine text) (upToFault tokens)

def Bounded (text : List Char) : Prop :=
  (∀ c ∈ text.head?, endsNumber c = true) ∧ ∀ c ∈ (onOneLine text).head?, endsNumber c = true

def Detached (text : List Char) : Prop := ∀ rest, Bounded rest → Bounded (text ++ rest)

/-- In front of what is seamless and bounded, the text is read as the tokens, also if its lines are
    joined. -/
def Joinable (text : List Char) (tokens : List Token) : Prop :=
  ∀ rest more, Bounded rest → Seamless rest more → Seamless (text ++ rest) (tokens ++ more)

section Detached

variable {text rest : List Char}

theorem Bounded.cons {c : Char} (ends : endsNumber c = true) (shown : c ≠ '\n') (rest : List Char) :
    Bounded (c :: rest) := by
  constructor
  · rintro _ ⟨⟩
    exact ends
  · rw [onOneLine_cons shown]
    rintro _ ⟨⟩
    exact ends

theorem Bounded.newline (bounded : Bounded rest) : Bounded ('\n' :: rest) := by
  refine ⟨?_, bounded.2⟩
  rintro _ ⟨⟩
  decide

theorem Detached.nil : Detached [] := fun _ bounded => bounded

theorem Detached.cons {c : Char} (ends : endsNumber c = true) (shown : c ≠ '\n') (text : List Char) :
    Detached (c :: text) := fun rest _ => .cons ends shown (text ++ rest)

theorem Detached.newline (detached : Detached text) : Detached ('\n' :: text) :=
  fun rest bounded => .newline (detached rest bounded)

theorem Detached.append {other : List Char} (first : Detached text) (second : Detached other) :
    Detached (text ++ other) := by
  intro rest bounded
  rw [List.append_assoc]
  exact first _ (second rest bounded)

end Detached

section Seamless

variable {text rest : List Char} {tokens : List Token}

theorem Seamless.nil : Seamless [] [] := ⟨List.not_mem_nil, .nil, .nil⟩

theorem Seamless.newline (seamless : Seamless rest tokens) : Seamless ('\n' :: rest) tokens := by
  refine ⟨?_, seamless.read.newline, seamless.joined⟩
  simpa using seamless.clean

theorem Seamless.separator {c : Char} (between : c = ' ' ∨ c = ',') (seamless : Seamless rest tokens) :
    Seamless (c :: rest) tokens := by
  have kept : onOneLine (c :: rest) = c :: onOneLine rest := by
    rcases between with rfl | rfl <;> rfl
  refine ⟨?_, .separator between seamless.read, ?_⟩
  · have clean := seamless.clean
    rcases between with rfl | rfl <;> simpa using clean
  · rw [kept]
    exact .separator between seamless.joined

/-- A word that starts with the first character and that is read as a token, whatever is behind it. -/
theorem Seamless.of_read {c : Char} {word joined : List Char} {token : Token} (shown : isIgnored c = false)
    (clean : '\r' ∉ c :: word) (whole : onOneLine (c :: word) = c :: joined)
    (reading : ∃ written, Token.read c (word ++ rest) = ⟨token, written, rest⟩)
    (also : ∃ written, Token.read c (joined ++ onOneLine rest) = ⟨token, written, onOneLine rest⟩)
    (seamless : Seamless rest tokens) : Seamless (c :: word ++ rest) (token :: tokens) := by
  obtain ⟨written, reading⟩ := reading
  obtain ⟨otherWritten, also⟩ := also
  refine ⟨?_, .of_read shown reading seamless.read, ?_⟩
  · rw [List.mem_append, not_or]
    exact ⟨clean, seamless.clean⟩
  · rw [onOneLine_append, whole]
    exact .of_read shown also seamless.joined

theorem Seamless.mark {c : Char} (isMark : isMark c = true) (seamless : Seamless rest tokens) :
    Seamless (c :: rest) (.mark c :: tokens) := by
  have shown := isIgnored_eq_false (.inl isMark)
  have other (d : Char) (ignored : isIgnored d = true) : c ≠ d := by
    rintro rfl
    cases shown.symm.trans ignored
  have reading (rest : List Char) : Token.read c ([] ++ rest) = ⟨.mark c, [c], rest⟩ := if_pos isMark
  have clean : '\r' ∉ [c] := by simpa using Ne.symm (other '\r' (by decide))
  have whole : Seamless ([c] ++ rest) (.mark c :: tokens) :=
    .of_read shown clean (onOneLine_cons (other '\n' (by decide)) []) ⟨_, reading _⟩ ⟨_, reading _⟩ seamless
  exact whole

theorem Seamless.ellipsis (seamless : Seamless rest tokens) :
    Seamless ('.' :: '.' :: '.' :: rest) (.ellipsis :: tokens) := by
  have reading (rest : List Char) : Token.read '.' (['.', '.'] ++ rest) = ⟨.ellipsis, ['.', '.', '.'], rest⟩ := rfl
  have whole : Seamless (['.', '.', '.'] ++ rest) (.ellipsis :: tokens) :=
    .of_read (by decide) (by decide) rfl ⟨_, reading _⟩ ⟨_, reading _⟩ seamless
  exact whole

end Seamless

def IsWord (text : List Char) (token : Token) : Prop :=
  ∃ c word, text = c :: word ∧ isIgnored c = false ∧ (∀ d ∈ text, d ≠ '\n' ∧ d ≠ '\r') ∧
    ∀ rest : List Char, (∀ d ∈ rest.head?, endsNumber d = true) →
      ∃ written, read c (word ++ rest) = ⟨token, written, rest⟩

section Joinable

variable {text other : List Char} {tokens more : List Token} {token : Token}

theorem Joinable.nil : Joinable [] [] := fun _ _ _ seamless => seamless

theorem Joinable.separator {c : Char} (between : c = ' ' ∨ c = ',') (joinable : Joinable text tokens) :
    Joinable (c :: text) tokens :=
  fun rest more bounded seamless => .separator between (joinable rest more bounded seamless)

theorem Joinable.newline (joinable : Joinable text tokens) : Joinable ('\n' :: text) tokens :=
  fun rest more bounded seamless => .newline (joinable rest more bounded seamless)

theorem Joinable.mark {c : Char} (isMark : isMark c = true) (joinable : Joinable text tokens) :
    Joinable (c :: text) (.mark c :: tokens) :=
  fun rest more bounded seamless => .mark isMark (joinable rest more bounded seamless)

theorem Joinable.ellipsis (joinable : Joinable text tokens) :
    Joinable ('.' :: '.' :: '.' :: text) (.ellipsis :: tokens) :=
  fun rest more bounded seamless => .ellipsis (joinable rest more bounded seamless)

theorem Joinable.append (first : Joinable text tokens) (detached : Detached other)
    (second : Joinable other more) : Joinable (text ++ other) (tokens ++ more) := by
  intro rest further bounded seamless
  rw [List.append_assoc, List.append_assoc]
  exact first _ _ (detached rest bounded) (second rest further bounded seamless)

theorem IsWord.joinable (isWord : IsWord text token) : Joinable text [token] := by
  obtain ⟨c, word, rfl, shown, plain, reading⟩ := isWord
  have whole : onOneLine (c :: word) = c :: word :=
    onOneLine_of_not_mem fun member => (plain _ member).1 rfl
  intro rest more bounded seamless
  exact .of_read shown (fun member => (plain _ member).2 rfl) whole (reading rest bounded.1)
    (reading _ bounded.2) seamless

end Joinable

end QueryTypes.Token
