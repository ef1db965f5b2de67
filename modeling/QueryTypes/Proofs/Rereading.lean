import QueryTypes.Proofs.JoinedDocuments
import QueryTypes.Proofs.OperationText

namespace QueryTypes

/-- The tokens do not start with one of the marks. -/
def Token.Unmarked (stops : List Char) (tokens : List Token) : Prop := ∀ c ∈ stops, tokens.head? ≠ some (.mark c)

theorem Token.unmarked_nil (tokens : List Token) : Token.Unmarked [] tokens := fun _ member => absurd member List.not_mem_nil

theorem Token.Unmarked.append {stops : List Char} {tokens : List Token} (unmarked : Token.Unmarked stops tokens)
    (filled : tokens ≠ []) (after : List Token) : Token.Unmarked stops (tokens ++ after) := by
  intro c member
  rw [List.head?_append_of_ne_nil _ filled]
  exact unmarked c member

namespace Rule

/-- None of the tokens is malformed, and the rule reads all of them if none of the marks follows. -/
structure Accepts {α : Type} (rule : Rule α) (tokens : List Token) (stops : List Char) : Prop where
  sound : .malformed ∉ tokens
  reads : ∀ after, Token.Unmarked stops after → rule.Reads True (tokens ++ after) after fun _ => True

section Accepts

variable {α β : Type} {rule : Rule α} {next : α → Rule β} {tokens more : List Token} {stops others : List Char}

theorem Accepts.weaken (own : rule.Accepts tokens stops) (subset : stops ⊆ others) : rule.Accepts tokens others :=
  ⟨own.sound, fun after unmarked => own.reads after fun c member => unmarked c (subset member)⟩

theorem accepts_pure (a : α) : Accepts (pure a) [] stops := ⟨List.not_mem_nil, fun _ _ => .pure trivial⟩

/-- What the first rule must not be followed by is not in front of the other tokens. -/
theorem Accepts.bind [Inhabited α] (first : rule.Accepts tokens stops) (onward : ∀ a, (next a).Accepts more others)
    (unmarked : ∀ after, Token.Unmarked others after → Token.Unmarked stops (more ++ after)) :
    (rule >>= next).Accepts (tokens ++ more) others := by
  refine ⟨?_, fun after outside => ?_⟩
  · rw [List.mem_append, not_or]
    exact ⟨first.sound, (onward default).sound⟩
  · rw [List.append_assoc]
    exact (first.reads _ (unmarked after outside)).bind fun a _ => (onward a).reads after outside

/-- Behind a rule that is complete by itself anything may follow. -/
theorem Accepts.andThen [Inhabited α] (first : rule.Accepts tokens []) (onward : ∀ a, (next a).Accepts more others) :
    (rule >>= next).Accepts (tokens ++ more) others :=
  first.bind onward fun _ _ => Token.unmarked_nil _

theorem Accepts.last [Inhabited α] (own : rule.Accepts tokens stops) (onward : ∀ a, (next a).Accepts [] stops) :
    (rule >>= next).Accepts tokens stops := by
  simpa using own.bind onward fun _ unmarked => unmarked

theorem Accepts.skip [Inhabited α] (own : rule.Accepts [] stops) (onward : ∀ a, (next a).Accepts tokens others)
    (unmarked : ∀ after, Token.Unmarked others after → Token.Unmarked stops (tokens ++ after)) :
    (rule >>= next).Accepts tokens others :=
  own.bind onward unmarked

theorem accepts_expect {next : Unit → Rule β} {token : Token} (sound : token ≠ .malformed)
    (onward : (next ()).Accepts tokens stops) : (expect token >>= next).Accepts (token :: tokens) stops := by
  refine ⟨?_, fun after unmarked => (reads_expect token).bind fun _ _ => onward.reads after unmarked⟩
  rw [List.mem_cons, not_or]
  exact ⟨Ne.symm sound, onward.sound⟩

theorem accepts_mark {next : Unit → Rule β} (c : Char) (onward : (next ()).Accepts tokens stops) :
    (mark c >>= next).Accepts (.mark c :: tokens) stops :=
  accepts_expect (by simp) onward

theorem accepts_keyword {next : Unit → Rule β} (text : String) (onward : (next ()).Accepts tokens stops) :
    (keyword text >>= next).Accepts (.name text :: tokens) stops :=
  accepts_expect (by simp) onward

theorem accepts_name {next : String → Rule β} (text : String) (onward : (next text).Accepts tokens stops) :
    (name >>= next).Accepts (.name text :: tokens) stops := by
  refine ⟨?_, fun after unmarked => (reads_name text).bind fun found same => ?_⟩
  · rw [List.mem_cons, not_or]
    exact ⟨by simp, onward.sound⟩
  · rw [same]
    exact onward.reads after unmarked

theorem accepts_position {next : Position → Rule β} (onward : ∀ place, (next place).Accepts tokens stops) :
    (position >>= next).Accepts tokens stops :=
  ⟨(onward default).sound, fun after unmarked => reads_position.bind fun place _ => (onward place).reads after unmarked⟩

theorem accepts_take {meaning : Token → Option α} {token : Token} (sound : token ≠ .malformed)
    (meant : (meaning token).isSome = true) : (take meaning).Accepts [token] [] := by
  obtain ⟨a, read⟩ := Option.isSome_iff_exists.mp meant
  exact ⟨by simpa using Ne.symm sound, fun _ _ => (reads_take read).weaken fun _ _ => trivial⟩

theorem accepts_then {token : Token} {yes no : Rule α} (own : yes.Accepts (token :: tokens) stops) :
    Accepts (do if ← nextIs token then yes else no) (token :: tokens) stops :=
  ⟨own.sound, fun after unmarked => reads_then (own.reads after unmarked)⟩

theorem accepts_else {token : Token} {yes no : Rule α} (own : no.Accepts tokens stops)
    (other : ∀ after, Token.Unmarked stops after → (tokens ++ after).head? ≠ some token) :
    Accepts (do if ← nextIs token then yes else no) tokens stops :=
  ⟨own.sound, fun after unmarked => reads_else (other after unmarked) (own.reads after unmarked)⟩

theorem accepts_peek {next : Option Token → Rule β} {token : Token}
    (own : (next (some token)).Accepts (token :: tokens) stops) : (peek? >>= next).Accepts (token :: tokens) stops := by
  refine ⟨own.sound, fun after unmarked => reads_peek?.bind fun answer known => ?_⟩
  rw [known]
  exact own.reads after unmarked

theorem accepts_optionally_none (c : Char) : (optionally (.mark c) rule).Accepts [] [c] :=
  ⟨List.not_mem_nil, fun _ unmarked =>
    (reads_optionally_none (unmarked c List.mem_cons_self)).weaken fun _ _ => trivial⟩

theorem accepts_optionally_some {token : Token} (own : rule.Accepts (token :: tokens) stops) :
    (optionally token rule).Accepts (token :: tokens) stops :=
  ⟨own.sound, fun after unmarked => (reads_optionally_some rfl (own.reads after unmarked)).weaken fun _ _ => trivial⟩

section Items

variable {ι : Type} {items : List ι} {written : ι → List Token} {next : List α → Rule β} {close : Char}
  (each : ∀ item ∈ items, rule.Accepts (written item) stops)

include each

omit each in
theorem oneOrMore_bind : (oneOrMore close rule >>= next) =
    rule >>= fun first => zeroOrMore close rule >>= fun rest => next (first :: rest) := by
  funext lexemes
  simp only [oneOrMore, bind_apply]
  cases rule lexemes with
  | error failed => rfl
  | ok result =>
    dsimp only
    cases zeroOrMore close rule result.2 <;> rfl

theorem not_mem_flatMap : .malformed ∉ items.flatMap written := by
  intro member
  obtain ⟨item, listed, inside⟩ := List.mem_flatMap.mp member
  exact (each item listed).sound inside

theorem reads_items {goesOn : Option Token → Bool} {after : List Token}
    (starts : ∀ item ∈ items, written item ≠ [] ∧ Token.Unmarked stops (written item) ∧
      goesOn (written item).head? = true)
    (unmarked : Token.Unmarked stops after) (ends : goesOn after.head? = false) :
    (repeatWhile goesOn rule).Reads True (items.flatMap written ++ after) after fun _ => True := by
  have opens (item : ι) (listed : item ∈ items) (following : List Token) :
      Token.Unmarked stops (written item ++ following) ∧ goesOn (written item ++ following).head? = true := by
    obtain ⟨filled, between, goes⟩ := starts item listed
    refine ⟨between.append filled following, ?_⟩
    rwa [List.head?_append_of_ne_nil _ filled]
  have reads (item : ι) (listed : item ∈ items) (following : List Token) (between : Token.Unmarked stops following) :
      rule.Reads True (written item ++ following) following fun _ => True :=
    (each item listed).reads following between
  exact (reads_repeatWhile (fun item listed => (starts item listed).1) opens reads unmarked ends).weaken
    fun _ _ => trivial

/-- Items up to a mark that is none of those with which an item goes on. -/
theorem accepts_zeroOrMore
    (starts : ∀ item ∈ items, written item ≠ [] ∧ Token.Unmarked (close :: stops) (written item))
    (closing : close ∉ stops) (onward : ∀ results, (next results).Accepts (.mark close :: more) others) :
    (zeroOrMore close rule >>= next).Accepts (items.flatMap written ++ .mark close :: more) others := by
  refine ⟨?_, fun after outside => ?_⟩
  · rw [List.mem_append, not_or]
    exact ⟨not_mem_flatMap each, (onward []).sound⟩
  · have goesOn (item : ι) (listed : item ∈ items) : written item ≠ [] ∧ Token.Unmarked stops (written item) ∧
        ((written item).head? != some (.mark close)) = true := by
      obtain ⟨filled, unmarked⟩ := starts item listed
      refine ⟨filled, fun c member => unmarked c (List.mem_cons_of_mem _ member), ?_⟩
      simpa using unmarked close List.mem_cons_self
    have closes : Token.Unmarked stops (.mark close :: (more ++ after)) := by
      rintro c member ⟨⟩
      exact closing member
    rw [List.append_assoc]
    exact (reads_items each goesOn closes (by simp)).bind fun results _ => (onward results).reads after outside

theorem accepts_oneOrMore [Inhabited α] (filled : items ≠ [])
    (starts : ∀ item ∈ items, written item ≠ [] ∧ Token.Unmarked (close :: stops) (written item))
    (closing : close ∉ stops) (onward : ∀ results, (next results).Accepts (.mark close :: more) others) :
    (oneOrMore close rule >>= next).Accepts (items.flatMap written ++ .mark close :: more) others := by
  cases items with
  | nil => exact absurd rfl filled
  | cons first items =>
    rw [List.forall_mem_cons] at each starts
    have rest (a : α) := accepts_zeroOrMore each.2 starts.2 closing fun results => onward (a :: results)
    rw [List.flatMap_cons, List.append_assoc, oneOrMore_bind]
    refine each.1.bind rest fun after _ => ?_
    cases items with
    | nil =>
      rintro c member ⟨⟩
      exact closing member
    | cons second items =>
      obtain ⟨filled, unmarked⟩ := starts.2 second List.mem_cons_self
      rw [List.flatMap_cons, List.append_assoc, List.append_assoc]
      exact Token.Unmarked.append (fun c member => unmarked c (List.mem_cons_of_mem _ member)) filled _

end Items

end Accepts

end Rule

open Rule

variable {depth : Nat}

def Token.IsPlain : Token → Prop
  | .int _ | .float _ | .string _ | .name _ => True
  | _ => False

namespace Value

/-- The text of the number can be read. There is none for the least infinity, and a float without decimal
    places is read as a whole number of 64 bits. -/
def IsLegible : Value → Prop
  | .float value => Token.ofFloat value ≠ .malformed
  | _ => True

theorem accepts_simple (constant : Bool) {token : Token} (plain : token.IsPlain) :
    (simple constant).Accepts [token] [] := by
  have sound : token ≠ .malformed := by
    rintro rfl
    exact plain
  refine ⟨by simpa using Ne.symm sound, fun after _ => (reads_nextIs _).bind fun answer known => ?_⟩
  have absent : answer = false := by
    rw [known]
    cases token with
    | mark => exact plain.elim
    | _ => rfl
  rw [absent, if_neg (by simp)]
  refine (accepts_take sound ?_).reads after (Token.unmarked_nil after)
  cases token with
  | name text => split <;> first | rfl | simp_all
  | int => rfl
  | float => rfl
  | string => rfl
  | _ => exact plain.elim

theorem accepts_plain (constant : Bool) (depth : Nat) {token : Token} (plain : token.IsPlain) :
    (rule constant depth).Accepts [token] [] := by
  have other (c : Char) (after : List Token) (_ : Token.Unmarked [] after) : ([token] ++ after).head? ≠ some (.mark c) := by
    rintro ⟨⟩
    exact plain
  cases depth with
  | zero => exact accepts_simple constant plain
  | succ depth => exact accepts_else (accepts_else (accepts_simple constant plain) (other '{')) (other '[')

theorem isPlain_ofNumber {text : List Char} (sound : Token.ofNumber text ≠ .malformed) :
    (Token.ofNumber text).IsPlain := by
  unfold Token.ofNumber at sound ⊢
  split
  · split
    · trivial
    · simp_all
  · split
    · trivial
    · simp_all

theorem isPlain_ofFloat {value : Binary64} (sound : Token.ofFloat value ≠ .malformed) :
    (Token.ofFloat value).IsPlain := by
  unfold Token.ofFloat at sound ⊢
  split
  · trivial
  · exact isPlain_ofNumber (by simpa using sound)

theorem ofNumber_ne_mark (text : List Char) (c : Char) : Token.ofNumber text ≠ .mark c := by
  unfold Token.ofNumber
  split
  · split <;> simp
  · split <;> simp

theorem unmarked_tokens (value : Value) : value.tokens ≠ [] ∧ Token.Unmarked [']'] value.tokens := by
  cases value with
  | int value => exact ⟨List.cons_ne_nil _ _, by simp [Token.Unmarked, tokens, ofNumber_ne_mark]⟩
  | float value =>
    have other : Token.ofFloat value ≠ .mark ']' := by
      unfold Token.ofFloat
      split
      · simp
      · exact ofNumber_ne_mark _ _
    exact ⟨List.cons_ne_nil _ _, by simpa [Token.Unmarked, tokens] using other⟩
  | _ => exact ⟨List.cons_ne_nil _ _, by simp [Token.Unmarked, tokens]⟩

theorem Readable.accepts {constant : Bool} {value : Value} (readable : value.Readable constant depth)
    (legible : ∀ leaf ∈ value.leaves, leaf.IsLegible) : (rule constant depth).Accepts value.tokens [] := by
  induction readable with
  | @var depth name _ free =>
    subst free
    exact ⟨by simp [tokens], fun _ _ => (reads_variable name depth).weaken fun _ _ => trivial⟩
  | null => exact accepts_plain constant _ trivial
  | boolean => exact accepts_plain constant _ trivial
  | int fits =>
    rw [tokens, Token.ofNumber_int fits]
    exact accepts_plain constant _ trivial
  | float => exact accepts_plain constant _ (isPlain_ofFloat (legible _ List.mem_cons_self))
  | string => exact accepts_plain constant _ trivial
  | enum => exact accepts_plain constant _ trivial
  | @list depth elements _ ih =>
    rw [leaves, leavesAll_eq] at legible
    have below (element : Value) (listed : element ∈ elements) : ∀ leaf ∈ element.leaves, leaf.IsLegible :=
      fun leaf inLeaves => legible leaf (List.mem_flatMap.mpr ⟨element, listed, inLeaves⟩)
    rw [tokens, tokensAll_eq]
    refine accepts_then (accepts_mark '[' ?_)
    refine accepts_zeroOrMore (fun element listed => ih element listed (below element listed))
      (fun element _ => unmarked_tokens element) List.not_mem_nil fun results => ?_
    exact accepts_mark ']' (accepts_pure _)
  | @object depth entries _ _ ih =>
    rw [leaves, entryLeaves_eq] at legible
    have below (entry : String × Value) (listed : entry ∈ entries) : ∀ leaf ∈ entry.2.leaves, leaf.IsLegible :=
      fun leaf inLeaves => legible leaf (List.mem_flatMap.mpr ⟨entry, listed, inLeaves⟩)
    rw [tokens, entryTokens_eq]
    refine accepts_else (accepts_then (accepts_mark '{' ?_)) (by simp)
    refine accepts_zeroOrMore (fun entry listed => ?_) (fun entry _ => ?_) List.not_mem_nil
      fun results => accepts_mark '}' (accepts_pure _)
    · refine accepts_name entry.1 <| accepts_mark ':' ?_
      exact (ih entry listed (below entry listed)).last fun _ => accepts_pure _
    · exact ⟨List.cons_ne_nil _ _, by simp [Token.Unmarked]⟩

end Value

section Directives

variable {arguments : List Argument} {directives : List Directive} {stops : List Char} {after : List Token}

theorem accepts_arguments (each : ∀ argument ∈ arguments, argument.Readable depth)
    (legible : ∀ leaf ∈ argumentLeaves arguments, leaf.IsLegible) :
    (Argument.rules depth).Accepts (argumentsTokens arguments) ['('] := by
  cases arguments with
  | nil =>
    cases depth with
    | zero => exact accepts_pure _
    | succ depth => exact accepts_else (accepts_pure _) fun after unmarked => unmarked '(' List.mem_cons_self
  | cons first rest =>
    cases depth with
    | zero => exact (each first List.mem_cons_self).elim
    | succ depth =>
      have item (argument : Argument) (listed : argument ∈ first :: rest) :
          Accepts (do
            let name ← Rule.name
            Rule.mark ':'
            return (⟨name, ← Value.rule false depth⟩ : Argument)) argument.tokens [] := by
        refine accepts_name argument.name <| accepts_mark ':' ?_
        exact ((each argument listed).2.accepts fun leaf inLeaves =>
          legible leaf (List.mem_flatMap.mpr ⟨argument, listed, inLeaves⟩)).last fun _ => accepts_pure _
      rw [argumentsTokens, if_neg (by simp)]
      refine accepts_then (accepts_mark '(' ?_)
      refine accepts_oneOrMore item (List.cons_ne_nil _ _) (fun argument _ => ?_)
        List.not_mem_nil fun results => accepts_mark ')' (accepts_pure _)
      exact ⟨List.cons_ne_nil _ _, by simp [Token.Unmarked, Argument.tokens]⟩

theorem accepts_directives (each : ∀ directive ∈ directives, directive.Readable depth)
    (legible : ∀ leaf ∈ directiveLeaves directives, leaf.IsLegible) :
    (Directive.rules depth).Accepts (directives.flatMap Directive.tokens) ['@', '('] := by
  have own (directive : Directive) (listed : directive ∈ directives) :=
    accepts_arguments (each directive listed).arguments fun leaf inLeaves => legible leaf (List.mem_flatMap.mpr ⟨directive, listed, inLeaves⟩)
  have item (directive : Directive) (listed : directive ∈ directives) :
      Accepts (do
        let position ← Rule.position
        Rule.mark '@'
        let name ← Rule.name
        return (⟨position, name, ← Argument.rules depth⟩ : Directive)) directive.tokens ['('] := by
    refine accepts_position fun _ => accepts_mark '@' ?_
    exact accepts_name directive.name <| (own directive listed).last fun _ => accepts_pure _
  refine ⟨not_mem_flatMap item, fun after unmarked => ?_⟩
  refine reads_items item (fun directive _ => ?_) ?_ ?_
  · exact ⟨List.cons_ne_nil _ _, by simp [Token.Unmarked, Directive.tokens], by simp [Directive.tokens]⟩
  · exact fun c member => unmarked c (List.mem_cons_of_mem _ member)
  · simpa using unmarked '@' List.mem_cons_self

theorem unmarked_arguments (unmarked : Token.Unmarked stops after) (other : '(' ∉ stops) :
    Token.Unmarked stops (argumentsTokens arguments ++ after) := by
  cases arguments with
  | nil => exact unmarked
  | cons first rest =>
    rintro c member ⟨⟩
    exact other member

theorem unmarked_directives (unmarked : Token.Unmarked stops after) (other : '@' ∉ stops) :
    Token.Unmarked stops (directives.flatMap Directive.tokens ++ after) := by
  cases directives with
  | nil => exact unmarked
  | cons first rest =>
    rintro c member ⟨⟩
    exact other member

end Directives

namespace Selection

variable {nested : Rule SelectionSet} {body : List Token} {stops : List Char}

theorem accepts_fieldRule {head : FieldHead} (own : head.Readable depth) (legible : ∀ leaf ∈ head.leaves, leaf.IsLegible)
    (below : (optionally (.mark '{') nested).Accepts body stops)
    (unmarked : ∀ after, Token.Unmarked stops after → Token.Unmarked [':', '(', '@'] (body ++ after)) :
    (fieldRule depth nested).Accepts (head.tokens ++ body) stops := by
  rw [FieldHead.leaves, List.forall_mem_append] at legible
  have arguments := accepts_arguments own.arguments legible.1
  have directives := accepts_directives own.directives legible.2
  have narrow {some : List Char} (subset : some ⊆ [':', '(', '@']) (after : List Token)
      (outside : Token.Unmarked stops after) : Token.Unmarked some (body ++ after) :=
    fun c member => unmarked after outside c (subset member)
  have onward (made : List Argument → List Directive → Option SelectionSet → Selection) :
      Accepts (do
        let arguments ← Argument.rules depth
        let directives ← Directive.rules depth
        let set? ← Rule.optionally (.mark '{') nested
        return made arguments directives set?)
        (argumentsTokens head.arguments ++ (head.directives.flatMap Directive.tokens ++ body)) stops := by
    refine arguments.bind (fun _ => directives.bind (fun _ => below.last fun _ => accepts_pure _) ?_) ?_
    · exact narrow (by simp)
    · intro after outside
      rw [List.append_assoc]
      exact unmarked_directives (narrow (by simp) after outside) (by simp)
  refine accepts_position fun position => ?_
  unfold FieldHead.tokens
  cases head.label with
  | none =>
    rw [List.nil_append, List.cons_append, List.append_assoc]
    refine accepts_name head.name ((accepts_optionally_none ':').skip (fun _ => onward _) fun after outside => ?_)
    rw [List.append_assoc, List.append_assoc]
    exact unmarked_arguments (unmarked_directives (narrow (by simp) after outside) (by simp)) (by simp)
  | some label =>
    have aliased : (optionally (.mark ':') (do Rule.mark ':'; Rule.name)).Accepts [.mark ':', .name head.name] [] :=
      accepts_optionally_some (accepts_mark ':' (accepts_take (by simp) rfl))
    simp only [List.cons_append, List.nil_append, List.append_assoc]
    exact accepts_name label (aliased.andThen fun _ => onward _)

theorem accepts_inlineRule {directives : List Directive} (each : ∀ directive ∈ directives, directive.Readable depth)
    (legible : ∀ leaf ∈ directiveLeaves directives, leaf.IsLegible) {inside : List Token}
    (below : nested.Accepts (bracedTokens inside) []) (position : Position) (condition : Option String) :
    (inlineRule depth nested position condition).Accepts
      (directives.flatMap Directive.tokens ++ bracedTokens inside) [] := by
  refine (accepts_directives each legible).bind (fun _ => below.last fun _ => accepts_pure _) fun after _ => ?_
  simp [Token.Unmarked, bracedTokens]

theorem unmarked_tokens (selection : Selection) :
    selection.tokens ≠ [] ∧ Token.Unmarked ['}', ':', '(', '@', '{'] selection.tokens := by
  cases selection with
  | field head span selections =>
    rw [tokens, FieldHead.tokens]
    cases head.label <;> simp [Token.Unmarked]
  | inline head span selections => simp [Token.Unmarked, tokens, InlineHead.tokens]
  | spread s => simp [Token.Unmarked, tokens]

theorem accepts_set {selections : List Selection} (filled : selections ≠ [])
    (each : ∀ selection ∈ selections,
      (Selection.rule depth (SelectionSet.rule depth)).Accepts selection.tokens [':', '(', '@', '{']) :
    (SelectionSet.rule (depth + 1)).Accepts (bracedTokens (tokensAll selections)) [] := by
  rw [tokensAll_eq]
  refine accepts_position fun _ => accepts_mark '{' ?_
  refine accepts_oneOrMore each filled (fun selection _ => unmarked_tokens selection) (by simp) fun _ => ?_
  exact accepts_position fun _ => accepts_mark '}' (accepts_pure _)

theorem unmarked_fieldTokens (head : FieldHead) (body after : List Token) :
    (head.tokens ++ body ++ after).head? ≠ some .ellipsis := by
  unfold FieldHead.tokens
  cases head.label <;> simp

theorem Readable.accepts {selection : Selection} (readable : selection.Readable depth)
    (legible : ∀ leaf ∈ selection.leaves, leaf.IsLegible) :
    (Selection.rule depth (SelectionSet.rule depth)).Accepts selection.tokens [':', '(', '@', '{'] := by
  induction readable with
  | @leaf depth head span own =>
    rw [leaves, leavesAll, List.append_nil] at legible
    have none : (optionally (.mark '{') (SelectionSet.rule depth)).Accepts [] [':', '(', '@', '{'] :=
      (accepts_optionally_none '{').weaken (by simp)
    have only := accepts_fieldRule own legible none fun after outside c member =>
      outside c (List.mem_append_left ['{'] member)
    exact accepts_else only fun after _ => unmarked_fieldTokens head [] after
  | @field depth head span selections own filled each ih =>
    rw [leaves, leavesAll_eq, List.forall_mem_append] at legible
    have set := accepts_set filled fun selection listed => ih selection listed fun leaf inLeaves =>
      legible.2 leaf (List.mem_flatMap.mpr ⟨selection, listed, inLeaves⟩)
    have whole := accepts_fieldRule own legible.1 (accepts_optionally_some set)
      fun after _ => by simp [Token.Unmarked]
    rw [tokens, if_neg (by simpa using filled)]
    exact (accepts_else whole fun after _ => unmarked_fieldTokens head _ after).weaken (List.nil_subset _)
  | @inline depth head span selections own filled each ih =>
    rw [leaves, leavesAll_eq, List.forall_mem_append] at legible
    have set := accepts_set filled fun selection listed => ih selection listed fun leaf inLeaves =>
      legible.2 leaf (List.mem_flatMap.mpr ⟨selection, listed, inLeaves⟩)
    have onward := accepts_inlineRule own.directives legible.1 set
    rw [tokens, InlineHead.tokens, List.cons_append]
    refine Accepts.weaken (accepts_then ?_) (List.nil_subset _)
    refine accepts_expect (by simp) (accepts_position fun place => ?_)
    cases head.condition with
    | some condition => exact accepts_peek (accepts_keyword "on" (accepts_name condition (onward place _)))
    | none =>
      cases directives : head.directives with
      | nil =>
        rw [directives] at onward
        exact accepts_peek (onward place none)
      | cons first rest =>
        rw [directives] at onward
        exact accepts_peek (onward place none)
  | @spread depth s own =>
    have directives := accepts_directives own.directives legible
    refine accepts_then (accepts_expect (by simp) (accepts_position fun place => accepts_peek ?_))
    split
    · rename_i isOn
      exact absurd (by simpa using isOn) own.other
    · rename_i same
      cases same
      exact accepts_keyword s.name ((directives.last fun _ => accepts_pure _).weaken (by simp))
    · rename_i other
      exact absurd rfl (other s.name)

end Selection

theorem SelectionSet.Readable.accepts {set : SelectionSet} (readable : set.Readable depth)
    (legible : ∀ leaf ∈ Selection.leavesAll set.items, leaf.IsLegible) :
    (SelectionSet.rule depth).Accepts (bracedTokens (Selection.tokensAll set.items)) [] := by
  rw [Selection.leavesAll_eq] at legible
  cases depth with
  | zero => exact readable.elim
  | succ depth =>
    exact Selection.accepts_set readable.1 fun selection listed => (readable.2 selection listed).accepts
      fun leaf inLeaves => legible leaf (List.mem_flatMap.mpr ⟨selection, listed, inLeaves⟩)

theorem TypeRef.malformed_notMem_tokens (type : TypeRef) : .malformed ∉ type.tokens := by
  induction type with
  | named name => simp [tokens]
  | list element ih => simpa [tokens] using ih
  | nonNull inner ih => simpa [tokens] using ih

theorem VariableDefinition.Readable.accepts {definition : VariableDefinition}
    (readable : definition.Readable (depth + 1)) (legible : ∀ leaf ∈ definition.leaves, leaf.IsLegible) :
    Accepts (do
      let position ← Rule.position
      Rule.mark '$'
      let name ← Rule.name
      Rule.mark ':'
      let type ← TypeRef.rule depth
      let initial ← Rule.optionally (.mark '=') (do Rule.mark '='; Value.rule true depth)
      return (⟨position, name, type, initial⟩ : VariableDefinition)) definition.tokens ['!', '='] := by
  obtain ⟨_, ⟨ofType, fits⟩, initial⟩ := readable
  have typed : (TypeRef.rule depth).Accepts definition.type.tokens ['!'] :=
    ⟨definition.type.malformed_notMem_tokens, fun after unmarked =>
      (TypeRef.reads_rule definition.type ofType.single depth (fun _ => fits) after
        (unmarked '!' List.mem_cons_self)).weaken fun _ _ => trivial⟩
  refine accepts_position fun _ => accepts_mark '$' (accepts_name definition.name (accepts_mark ':' ?_))
  unfold VariableDefinition.leaves at legible
  cases written : definition.initial with
  | none =>
    refine typed.bind (fun _ => ?_) fun after outside => ?_
    · exact ((accepts_optionally_none '=').last fun _ => accepts_pure _).weaken (by simp)
    · exact fun c member => outside c (List.mem_append_left ['='] member)
  | some value =>
    rw [written] at legible
    have assigned : (optionally (.mark '=') (do Rule.mark '='; Value.rule true depth)).Accepts
        (.mark '=' :: value.tokens) [] :=
      accepts_optionally_some (accepts_mark '=' ((initial value written).accepts legible))
    exact typed.bind (fun _ => (assigned.last fun _ => accepts_pure _).weaken (List.nil_subset _)) fun after _ => by
      simp [Token.Unmarked]

namespace OperationHead

variable {head : OperationHead}

theorem accepts_variables (each : ∀ definition ∈ head.parameters, definition.Readable depth)
    (legible : ∀ leaf ∈ head.parameters.flatMap VariableDefinition.leaves, leaf.IsLegible) :
    (VariableDefinition.rules depth).Accepts head.variablesTokens ['('] := by
  unfold variablesTokens
  split
  · cases depth with
    | zero => exact accepts_pure _
    | succ depth => exact accepts_else (accepts_pure _) fun after unmarked => unmarked '(' List.mem_cons_self
  · rename_i some
    have filled : head.parameters ≠ [] := by
      intro none
      simp [none] at some
    obtain ⟨first, listed⟩ := List.exists_mem_of_ne_nil _ filled
    cases depth with
    | zero => exact (each first listed).elim
    | succ depth =>
      refine accepts_then (accepts_mark '(' ?_)
      refine accepts_oneOrMore (fun definition listed => (each definition listed).accepts fun leaf inLeaves =>
          legible leaf (List.mem_flatMap.mpr ⟨definition, listed, inLeaves⟩)) filled (fun definition _ => ?_) (by simp)
        fun results => accepts_mark ')' (accepts_pure _)
      exact ⟨List.cons_ne_nil _ _, by simp [Token.Unmarked, VariableDefinition.tokens]⟩

theorem accepts_operationName_some {next : Option String → Rule Operation} {name : String} {tokens : List Token}
    (own : (next (some name)).Accepts tokens []) : (Rule.operationName >>= next).Accepts (.name name :: tokens) [] := by
  have reads (after : List Token) : Rule.operationName.Reads True (.name name :: after) after (· = some name) := by
    refine reads_peek?.bind fun answer known => ?_
    rw [known]
    exact (reads_keyword name).bind fun _ _ => .pure rfl
  refine ⟨by simpa using own.sound, fun after unmarked => (reads _).bind fun found same => ?_⟩
  rw [same]
  exact own.reads after unmarked

theorem accepts_operationName_none {next : Option String → Rule Operation} {c : Char} {tokens : List Token}
    (own : (next none).Accepts (.mark c :: tokens) []) : (Rule.operationName >>= next).Accepts (.mark c :: tokens) [] := by
  have reads (after : List Token) : Rule.operationName.Reads True (.mark c :: after) (.mark c :: after) (· = none) := by
    refine reads_peek?.bind fun answer known => ?_
    rw [known]
    exact .pure rfl
  refine ⟨own.sound, fun after unmarked => (reads _).bind fun found same => ?_⟩
  rw [same]
  exact own.reads after unmarked

theorem exists_mark (head : OperationHead) (inside : List Token) :
    ∃ c rest, head.variablesTokens ++ (head.directives.flatMap Directive.tokens ++ bracedTokens inside) =
      .mark c :: rest := by
  unfold variablesTokens
  split
  · cases head.directives with
    | nil => exact ⟨'{', _, rfl⟩
    | cons first rest => exact ⟨'@', _, rfl⟩
  · exact ⟨'(', _, rfl⟩

theorem Readable.accepts (readable : head.Readable depth) (legible : ∀ leaf ∈ head.leaves, leaf.IsLegible)
    {inside : List Token} (below : (SelectionSet.rule depth).Accepts (bracedTokens inside) []) :
    (Operation.rule depth head.kind).Accepts (head.tokens ++ bracedTokens inside) [] := by
  rw [leaves, List.forall_mem_append] at legible
  have onward (position : Position) (name : Option String) :
      Accepts (do
        let parameters ← VariableDefinition.rules depth
        let directives ← Directive.rules depth
        let selectionSet ← SelectionSet.rule depth
        return (⟨position, some ⟨head.kind, name, parameters, directives⟩, selectionSet⟩ : Operation))
        (head.variablesTokens ++ (head.directives.flatMap Directive.tokens ++ bracedTokens inside)) [] := by
    refine (accepts_variables readable.parameters legible.1).bind (fun _ => ?_) fun after _ => ?_
    · refine (accepts_directives readable.directives legible.2).bind (fun _ => below.last fun _ => accepts_pure _) ?_
      simp [Token.Unmarked, bracedTokens]
    · rw [List.append_assoc]
      exact unmarked_directives (by simp [Token.Unmarked, bracedTokens]) (by simp)
  rw [Operation.rule_eq, OperationHead.tokens, List.cons_append, List.append_assoc, List.append_assoc]
  refine accepts_position fun position => accepts_keyword head.kind.keyword ?_
  cases head.name with
  | some name => exact accepts_operationName_some (onward position (some name))
  | none =>
    have bare := onward position none
    obtain ⟨c, rest, starts⟩ := exists_mark head inside
    rw [starts] at bare
    rw [List.nil_append, starts]
    exact accepts_operationName_none bare

end OperationHead

namespace Definition

theorem Readable.accepts {definition : Definition} (readable : definition.Readable depth)
    (legible : ∀ leaf ∈ definition.leaves, leaf.IsLegible) : (Definition.rule depth).Accepts definition.tokens [] := by
  rw [leaves, List.forall_mem_append] at legible
  cases definition with
  | operation o =>
    have below := readable.selectionSet.accepts legible.2
    unfold tokens headTokens
    have legible := legible.1
    unfold headLeaves at legible
    dsimp only at legible ⊢
    cases headed : o.head with
    | none => exact accepts_peek (below.last fun _ => accepts_pure _)
    | some head =>
      rw [headed] at legible
      have whole := (readable.head head headed).accepts legible below
      obtain ⟨kind, name, parameters, directives⟩ := head
      cases kind with
      | query => exact accepts_peek (whole.last fun _ => accepts_pure _)
      | mutation => exact accepts_peek (whole.last fun _ => accepts_pure _)
      | subscription => exact accepts_peek (whole.last fun _ => accepts_pure _)
  | fragment f =>
    have below := readable.selectionSet.accepts legible.2
    have directives := accepts_directives readable.directives legible.1
    have whole : (Fragment.rule depth).Accepts (tokens (.fragment f)) [] := by
      refine accepts_position fun _ => accepts_keyword "fragment" (accepts_name f.name (accepts_keyword "on" ?_))
      refine accepts_name f.condition (directives.bind (fun _ => below.last fun _ => accepts_pure _) ?_)
      simp [Token.Unmarked, bracedTokens]
    exact accepts_peek (whole.last fun _ => accepts_pure _)

end Definition

/-- A text is read if its tokens are those of printed definitions with numbers that can be read. -/
theorem Document.exists_parse {definitions : List Definition} (filled : definitions ≠ [])
    (readable : ∀ definition ∈ definitions, definition.Readable Token.nestingLimit)
    (legible : ∀ definition ∈ definitions, ∀ leaf ∈ definition.leaves, leaf.IsLegible) {text : String}
    (lexes : Token.Lexes text.toList (Token.upToFault (definitions.flatMap Definition.tokens))) :
    ∃ document, Document.parse text = .ok document := by
  have each (definition : Definition) (listed : definition ∈ definitions) :=
    (readable definition listed).accepts (legible definition listed)
  rw [Token.upToFault_of_not_mem (not_mem_flatMap each)] at lexes
  have whole : (Rule.allOf (Definition.rule Token.nestingLimit)).Reads True (definitions.flatMap Definition.tokens) []
      fun _ => True := by
    cases definitions with
    | nil => exact absurd rfl filled
    | cons first rest =>
      rw [List.forall_mem_cons] at each
      have starts (definition : Definition) : definition.tokens ≠ [] := by simp [Definition.tokens, bracedTokens]
      have others : (Rule.repeatWhile Option.isSome (Definition.rule Token.nestingLimit)).Reads True
          (rest.flatMap Definition.tokens ++ []) [] fun _ => True :=
        reads_items each.2 (fun definition _ => ⟨starts definition, Token.unmarked_nil _, by simpa using starts definition⟩)
          (Token.unmarked_nil []) rfl
      rw [List.append_nil] at others
      exact (each.1.reads _ (Token.unmarked_nil _)).bind fun _ _ => others.bind fun _ _ => .pure trivial
  obtain ⟨definitions, parsed⟩ := (whole.of_parse lexes).2 trivial
  exact ⟨⟨definitions⟩, Document.parse_eq_ok_iff.mpr parsed⟩

end QueryTypes
