import Mathlib.Data.List.Forall2
import QueryTypes.Proofs.Lexing

namespace QueryTypes.Rule

variable {α β : Type} {rule : Rule α} {next : α → Rule β}

/-- On lexemes with `pre` the rule gives a result and a rest with `post`, or it fails and there is
    `failure`. -/
def Triple (pre : List Lexeme → Prop) (rule : Rule α) (post : α → List Lexeme → Prop) (failure : Prop) :
    Prop :=
  ∀ lexemes, pre lexemes →
    match rule lexemes with
    | .ok (a, rest) => post a rest
    | .error _ => failure

theorem bind_apply (lexemes : List Lexeme) :
    (rule >>= next) lexemes =
      match rule lexemes with
      | .error failed => .error failed
      | .ok (a, rest) => next a rest := rfl

section Triple

variable {pre : List Lexeme → Prop} {mid : α → List Lexeme → Prop} {post : β → List Lexeme → Prop}
  {failure : Prop}

theorem Triple.bind (first : Triple pre rule mid failure)
    (onward : ∀ a, Triple (mid a) (next a) post failure) : Triple pre (rule >>= next) post failure := by
  intro lexemes holds
  have read := first lexemes holds
  rw [bind_apply]
  cases outcome : rule lexemes with
  | error failed =>
    rw [outcome] at read
    exact read
  | ok result =>
    rw [outcome] at read
    exact onward result.1 result.2 read

end Triple

section Ensures

def WellFormed (lexemes : List Lexeme) : Prop := ∀ lexeme ∈ lexemes, lexeme.token.WellFormed

def Ensures (rule : Rule α) (holds : α → Prop) : Prop :=
  Triple WellFormed rule (fun a rest => holds a ∧ WellFormed rest) True

variable {holds : α → Prop} {also : β → Prop}

theorem Ensures.pure {a : α} (own : holds a) : Ensures (Pure.pure a : Rule α) holds :=
  fun _ formed => ⟨own, formed⟩

theorem Ensures.bind (first : rule.Ensures holds) (onward : ∀ a, holds a → (next a).Ensures also) :
    (rule >>= next).Ensures also :=
  Triple.bind first fun a lexemes ⟨own, formed⟩ => onward a own lexemes formed

theorem Ensures.andThen (first : rule.Ensures holds) (onward : ∀ a, (next a).Ensures also) :
    (rule >>= next).Ensures also :=
  first.bind fun a _ => onward a

theorem Ensures.of_branches {condition : Prop} [Decidable condition] {yes no : Rule α}
    (whenTrue : yes.Ensures holds) (whenFalse : no.Ensures holds) :
    Ensures (if condition then yes else no) holds := by
  split
  · exact whenTrue
  · exact whenFalse

theorem Ensures.weaken {weaker : α → Prop} (own : rule.Ensures holds) (implies : ∀ a, holds a → weaker a) :
    rule.Ensures weaker := by
  intro lexemes formed
  have read := own lexemes formed
  cases outcome : rule lexemes with
  | error failed => trivial
  | ok result =>
    rw [outcome] at read
    exact ⟨implies _ read.1, read.2⟩

theorem Ensures.and {also : α → Prop} (own : rule.Ensures holds) (other : rule.Ensures also) :
    rule.Ensures fun a => holds a ∧ also a := by
  intro lexemes formed
  have first := own lexemes formed
  have second := other lexemes formed
  cases outcome : rule lexemes with
  | error failed => trivial
  | ok result =>
    rw [outcome] at first second
    exact ⟨⟨first.1, second.1⟩, first.2⟩

theorem ensures_failAt (lexemes : List Lexeme) : (failAt lexemes : Rule α).Ensures holds :=
  fun _ _ => trivial

theorem ensures_remaining : remaining.Ensures fun _ => True := fun _ formed => ⟨trivial, formed⟩

theorem ensures_peek? : peek?.Ensures fun next => ∀ token ∈ next, token.WellFormed := by
  intro lexemes formed
  refine ⟨?_, formed⟩
  intro token isNext
  obtain ⟨lexeme, first, rfl⟩ := Option.map_eq_some_iff.mp isNext
  exact formed lexeme (List.mem_of_head? first)

theorem ensures_nextIs (token : Token) : (nextIs token).Ensures fun _ => True :=
  fun _ formed => ⟨trivial, formed⟩

theorem ensures_position : position.Ensures fun _ => True := fun _ formed => ⟨trivial, formed⟩

theorem ensures_take {meaning : Token → Option α}
    (each : ∀ token a, token.WellFormed → meaning token = some a → holds a) :
    (take meaning).Ensures holds := by
  intro lexemes formed
  cases lexemes with
  | nil => trivial
  | cons lexeme rest =>
    obtain ⟨own, others⟩ := List.forall_mem_cons.mp formed
    cases read : meaning lexeme.token with
    | none => simp only [take, read]
    | some a =>
      simp only [take, read]
      exact ⟨each lexeme.token a own read, others⟩

theorem ensures_expect (token : Token) : (expect token).Ensures fun _ => True :=
  ensures_take fun _ _ _ _ => trivial

theorem ensures_mark (c : Char) : (mark c).Ensures fun _ => True := ensures_expect _

theorem ensures_keyword (text : String) : (keyword text).Ensures fun _ => True := ensures_expect _

theorem ensures_name : name.Ensures fun text => isName text = true := by
  refine ensures_take fun token text formed read => ?_
  split at read
  · cases read
    exact formed
  · cases read

theorem ensures_optionally (token : Token) (own : rule.Ensures holds) :
    (optionally token rule).Ensures fun result => ∀ a ∈ result, holds a := by
  refine (ensures_nextIs token).andThen fun isNext => .of_branches ?_ (.pure nofun)
  refine own.bind fun a known => .pure ?_
  rintro _ ⟨⟩
  exact known

theorem ensures_repeatUpTo {goesOn : Option Token → Bool} (own : rule.Ensures holds) (count : Nat) :
    (repeatUpTo goesOn rule count).Ensures fun results => ∀ a ∈ results, holds a := by
  induction count with
  | zero => exact .pure nofun
  | succ count ih =>
    refine ensures_peek?.andThen fun following => .of_branches ?_ (.pure nofun)
    refine own.bind fun first known => ih.bind fun others rest => .pure ?_
    exact List.forall_mem_cons.mpr ⟨known, rest⟩

theorem ensures_repeatWhile {goesOn : Option Token → Bool} (own : rule.Ensures holds) :
    (repeatWhile goesOn rule).Ensures fun results => ∀ a ∈ results, holds a :=
  fun lexemes formed => ensures_repeatUpTo own lexemes.length lexemes formed

theorem ensures_zeroOrMore (close : Char) (own : rule.Ensures holds) :
    (zeroOrMore close rule).Ensures fun results => ∀ a ∈ results, holds a :=
  ensures_repeatWhile own

theorem ensures_oneOrMore (close : Char) (own : rule.Ensures holds) :
    (oneOrMore close rule).Ensures fun results => results ≠ [] ∧ ∀ a ∈ results, holds a :=
  own.bind fun _ known => (ensures_zeroOrMore close own).bind fun _ rest =>
    .pure ⟨List.cons_ne_nil _ _, List.forall_mem_cons.mpr ⟨known, rest⟩⟩

theorem ensures_allOf (own : rule.Ensures holds) :
    (allOf rule).Ensures fun results => ∀ a ∈ results, holds a :=
  own.bind fun _ known => (ensures_repeatWhile own).bind fun _ rest =>
    .pure (List.forall_mem_cons.mpr ⟨known, rest⟩)

theorem Ensures.of_parse (own : rule.Ensures holds) {text : String} {a : α}
    (parsed : rule.parse text = .ok a) : holds a := by
  have read := own _ (Token.wellFormed_lexemes .start text.toList)
  unfold parse at parsed
  dsimp only at parsed
  split at parsed
  · cases parsed
  · rename_i outcome
    cases parsed
    rw [outcome] at read
    exact read.1
  · cases parsed

end Ensures

section Reads

/-- From lexemes of the tokens `before` the rule reads on to the tokens `after`, with a result that
    has the property. It can fail only if there is no room. -/
def Reads (rule : Rule α) (room : Prop) (before after : List Token) (holds : α → Prop) : Prop :=
  Triple (fun lexemes => lexemes.map Lexeme.token = before) rule
    (fun a rest => holds a ∧ rest.map Lexeme.token = after) (¬room)

variable {room : Prop} {before middle after : List Token} {holds : α → Prop} {also : β → Prop}

theorem Reads.pure {a : α} (own : holds a) : Reads (Pure.pure a : Rule α) room before before holds :=
  fun _ same => ⟨own, same⟩

theorem Reads.bind (first : rule.Reads room before middle holds)
    (onward : ∀ a, holds a → (next a).Reads room middle after also) :
    (rule >>= next).Reads room before after also :=
  Triple.bind first fun a lexemes ⟨own, same⟩ => onward a own lexemes same

theorem Reads.weaken {weaker : α → Prop} (own : rule.Reads room before after holds)
    (implies : ∀ a, holds a → weaker a) : rule.Reads room before after weaker := by
  intro lexemes same
  have read := own lexemes same
  cases outcome : rule lexemes with
  | error failed =>
    rw [outcome] at read
    exact read
  | ok result =>
    rw [outcome] at read
    exact ⟨implies _ read.1, read.2⟩

theorem reads_nextIs (token : Token) :
    (nextIs token).Reads room before before fun answer => answer = (before.head? == some token) := by
  intro lexemes same
  refine ⟨?_, same⟩
  rw [← same, List.head?_map]

theorem reads_peek? : peek?.Reads room before before fun answer => answer = before.head? := by
  intro lexemes same
  refine ⟨?_, same⟩
  rw [← same, List.head?_map]

theorem reads_position : position.Reads room before before fun _ => True := fun _ same => ⟨trivial, same⟩

theorem reads_take {meaning : Token → Option α} {token : Token} {a : α} (read : meaning token = some a) :
    (take meaning).Reads room (token :: after) after (· = a) := by
  intro lexemes same
  cases lexemes with
  | nil => cases same
  | cons lexeme rest =>
    obtain ⟨own, others⟩ := List.cons.inj same
    have found : meaning lexeme.token = some a := own ▸ read
    rw [take, found]
    exact ⟨rfl, others⟩

theorem reads_expect (token : Token) : (expect token).Reads room (token :: after) after (· = ()) :=
  reads_take (if_pos rfl)

theorem reads_mark (c : Char) : (mark c).Reads room (.mark c :: after) after (· = ()) := reads_expect _

theorem reads_keyword (text : String) : (keyword text).Reads room (.name text :: after) after (· = ()) :=
  reads_expect _

theorem reads_name (text : String) : name.Reads room (.name text :: after) after (· = text) :=
  reads_take rfl

/-- A rule that reads a name fails in front of another token. -/
theorem reads_of_not_name {token : Token} {next : String → Rule α} (noRoom : ¬room)
    (other : ∀ text, token ≠ .name text) :
    (name >>= next).Reads room (token :: before) after holds := by
  intro lexemes same
  cases lexemes with
  | nil => cases same
  | cons lexeme rest =>
    obtain ⟨own, _⟩ := List.cons.inj same
    rw [bind_apply]
    cases token <;> simp_all [name, take]

theorem reads_optionally_none {token : Token} (other : before.head? ≠ some token) :
    (optionally token rule).Reads room before before (· = none) := by
  refine (reads_nextIs token).bind fun answer known => ?_
  have absent : answer = false := by
    rw [known]
    simpa using other
  rw [absent]
  exact .pure rfl

theorem reads_optionally_some {token : Token} (isNext : before.head? = some token)
    (own : rule.Reads room before after holds) :
    (optionally token rule).Reads room before after fun result => ∃ a, result = some a ∧ holds a := by
  refine (reads_nextIs token).bind fun answer known => ?_
  have present : answer = true := by
    rw [known]
    simpa using isNext
  rw [present]
  exact own.bind fun a known => .pure ⟨a, rfl, known⟩

section Repeated

variable {ι : Type} {items : List ι} {written : ι → List Token} {matching : ι → α → Prop}
  {apart : List Token → Prop} {goesOn : Option Token → Bool}

theorem reads_repeatUpTo_nil (stops : goesOn after.head? = false) (count : Nat) :
    (repeatUpTo goesOn rule count).Reads room after after (· = []) := by
  cases count with
  | zero => exact .pure rfl
  | succ count =>
    refine reads_peek?.bind fun following known => ?_
    rw [known, if_neg (by simp [stops])]
    exact .pure rfl

theorem reads_repeatWhile_nil (stops : goesOn after.head? = false) :
    (repeatWhile goesOn rule).Reads room after after (· = []) :=
  fun lexemes same => reads_repeatUpTo_nil stops lexemes.length lexemes same

/-- Items are read one after the other, where each can be read in front of what is `apart` from it. -/
theorem reads_repeatUpTo {count : Nat} (bound : items.length ≤ count)
    (starts : ∀ item ∈ items, ∀ following, apart (written item ++ following) ∧
      goesOn (written item ++ following).head? = true)
    (each : ∀ item ∈ items, ∀ following, apart following →
      rule.Reads room (written item ++ following) following (matching item))
    (last : apart after) (stops : goesOn after.head? = false) :
    (repeatUpTo goesOn rule count).Reads room (items.flatMap written ++ after) after
      (List.Forall₂ matching items) := by
  induction items generalizing count with
  | nil =>
    refine (reads_repeatUpTo_nil stops count).weaken fun results none => ?_
    rw [none]
    exact .nil
  | cons item items ih =>
    obtain ⟨count, rfl⟩ : ∃ more, count = more + 1 := Nat.exists_eq_add_one.mpr (Nat.lt_of_lt_of_le (by simp) bound)
    rw [List.forall_mem_cons] at starts each
    rw [List.flatMap_cons, List.append_assoc]
    refine reads_peek?.bind fun following known => ?_
    rw [known, if_pos (starts.1 _).2]
    have next : apart (items.flatMap written ++ after) := by
      cases items with
      | nil => exact last
      | cons second items =>
        rw [List.flatMap_cons, List.append_assoc]
        exact (starts.2 second List.mem_cons_self _).1
    refine (each.1 _ next).bind fun first own => ?_
    refine (ih (Nat.le_of_succ_le_succ bound) starts.2 each.2).bind fun others rest => ?_
    exact .pure (.cons own rest)

theorem length_le_length_flatMap (starts : ∀ item ∈ items, written item ≠ []) :
    items.length ≤ (items.flatMap written).length := by
  induction items with
  | nil => exact Nat.le_refl _
  | cons item items ih =>
    rw [List.forall_mem_cons] at starts
    have own := List.length_pos_iff.mpr starts.1
    have others := ih starts.2
    rw [List.flatMap_cons, List.length_append, List.length_cons]
    omega

theorem reads_repeatWhile (filled : ∀ item ∈ items, written item ≠ [])
    (starts : ∀ item ∈ items, ∀ following, apart (written item ++ following) ∧
      goesOn (written item ++ following).head? = true)
    (each : ∀ item ∈ items, ∀ following, apart following →
      rule.Reads room (written item ++ following) following (matching item))
    (last : apart after) (stops : goesOn after.head? = false) :
    (repeatWhile goesOn rule).Reads room (items.flatMap written ++ after) after
      (List.Forall₂ matching items) := by
  intro lexemes same
  have bound : items.length ≤ lexemes.length := by
    rw [← List.length_map Lexeme.token, same, List.length_append]
    exact Nat.le_trans (length_le_length_flatMap filled) (Nat.le_add_right _ _)
  exact reads_repeatUpTo bound starts each last stops lexemes same

/-- At least one item and then a closing mark, which is left. -/
theorem reads_oneOrMore (apart : List Token → Prop) (matching : ι → α → Prop) {close : Char} {item : ι}
    (filled : ∀ other ∈ items, written other ≠ [])
    (starts : ∀ other ∈ items, ∀ following, apart (written other ++ following) ∧
      (written other ++ following).head? ≠ some (.mark close))
    (each : ∀ other ∈ item :: items, ∀ following, apart following →
      rule.Reads room (written other ++ following) following (matching other))
    (last : apart (.mark close :: after)) :
    (oneOrMore close rule).Reads room ((item :: items).flatMap written ++ .mark close :: after)
      (.mark close :: after) (List.Forall₂ matching (item :: items)) := by
  rw [List.forall_mem_cons] at each
  rw [List.flatMap_cons, List.append_assoc]
  have next : apart (items.flatMap written ++ .mark close :: after) := by
    cases items with
    | nil => exact last
    | cons second items =>
      rw [List.flatMap_cons, List.append_assoc]
      exact (starts second List.mem_cons_self _).1
  refine (each.1 _ next).bind fun first own => ?_
  refine (reads_repeatWhile filled (fun other member following => ?_) each.2 last (by simp)).bind
    fun others rest => .pure (.cons own rest)
  obtain ⟨between, goesOn⟩ := starts other member following
  exact ⟨between, by simpa using goesOn⟩

theorem reads_oneOrMore_single {close : Char} {before : List Token}
    (own : rule.Reads room before (.mark close :: after) holds) :
    (oneOrMore close rule).Reads room before (.mark close :: after)
      fun results => ∃ a, results = [a] ∧ holds a := by
  refine own.bind fun a known => ?_
  refine (reads_repeatWhile_nil (by simp)).bind fun others none => .pure ⟨a, ?_, known⟩
  rw [none]

end Repeated

/-- A text that is spelled like the tokens is read whole. -/
theorem Reads.of_parse (own : rule.Reads room before [] holds) {text : String}
    (spelled : Token.Lexes text.toList before) :
    (∀ a, rule.parse text = .ok a → holds a) ∧ (room → ∃ a, rule.parse text = .ok a) := by
  have read := own _ (spelled .start)
  unfold parse
  dsimp only
  cases outcome : rule (Token.lexemes .start text.toList).1 with
  | error failed =>
    rw [outcome] at read
    exact ⟨nofun, fun enough => absurd enough read⟩
  | ok result =>
    obtain ⟨a, rest⟩ := result
    rw [outcome] at read
    obtain ⟨known, empty⟩ := read
    rw [List.map_eq_nil_iff] at empty
    subst empty
    refine ⟨?_, fun _ => ⟨a, rfl⟩⟩
    rintro _ ⟨⟩
    exact known

end Reads

end QueryTypes.Rule
