import QueryTypes.Proofs.ReadDocuments

namespace QueryTypes

namespace Rule

variable {α β : Type} {rule : Rule α} {next : α → Rule β} {most before middle after count : Nat}

def peak (count : Nat) (lexemes : List Lexeme) : Nat :=
  Token.deepest count ((lexemes.map Lexeme.token).filterMap Token.bracket?)

/-- The rule starts where `before` brackets are open and stops where `after` are. It reads no place where
    more than `most` are. -/
def Climbs (rule : Rule α) (most before after : Nat) : Prop :=
  ∀ lexemes a rest, rule lexemes = .ok (a, rest) → peak before lexemes ≤ max most (peak after rest)

theorem Climbs.pure (a : α) : (Pure.pure a : Rule α).Climbs most count count := by
  rintro lexemes _ _ ⟨⟩
  exact Nat.le_max_right _ _

theorem Climbs.bind (first : rule.Climbs most before middle) (onward : ∀ a, (next a).Climbs most middle after) :
    (rule >>= next).Climbs most before after := by
  intro lexemes b rest done
  rw [bind_apply] at done
  cases outcome : rule lexemes with
  | error failed =>
    rw [outcome] at done
    cases done
  | ok result =>
    rw [outcome] at done
    have here := first lexemes result.1 result.2 outcome
    have there := onward result.1 result.2 b rest done
    omega

theorem Climbs.branches {condition : Bool} {yes no : Rule α} (whenTrue : yes.Climbs most before after)
    (whenFalse : no.Climbs most before after) : Climbs (if condition then yes else no) most before after := by
  cases condition with
  | false => exact whenFalse
  | true => exact whenTrue

theorem climbs_fail : (fail : Rule α).Climbs most before after := nofun

theorem climbs_peek? : peek?.Climbs most count count := by
  rintro lexemes _ _ ⟨⟩
  exact Nat.le_max_right _ _

theorem climbs_nextIs (token : Token) : (nextIs token).Climbs most count count := by
  rintro lexemes _ _ ⟨⟩
  exact Nat.le_max_right _ _

theorem climbs_position : position.Climbs most count count := by
  rintro lexemes _ _ ⟨⟩
  exact Nat.le_max_right _ _

/-- One token is read, and what it does to the open brackets is known. -/
theorem climbs_take {meaning : Token → Option α}
    (step : ∀ lexeme rest a, meaning lexeme.token = some a →
      peak before (lexeme :: rest) ≤ max most (peak after rest)) :
    (take meaning).Climbs most before after := by
  intro lexemes a rest done
  cases lexemes with
  | nil => cases done
  | cons lexeme others =>
    rw [take] at done
    cases read : meaning lexeme.token with
    | none =>
      rw [read] at done
      cases done
    | some b =>
      rw [read] at done
      cases done
      exact step lexeme _ _ read

theorem climbs_take_plain {meaning : Token → Option α}
    (plain : ∀ token a, meaning token = some a → token.bracket? = none) : (take meaning).Climbs most count count := by
  refine climbs_take fun lexeme rest a read => ?_
  have skipped : peak count (lexeme :: rest) = peak count rest := by
    rw [peak, List.map_cons, List.filterMap_cons, plain lexeme.token a read]
    rfl
  omega

theorem climbs_expect {token : Token}
    (step : ∀ position rest, peak before (⟨position, token⟩ :: rest) ≤ max most (peak after rest)) :
    (expect token).Climbs most before after := by
  refine climbs_take fun lexeme rest a read => ?_
  obtain ⟨rfl, -⟩ := Option.ite_none_right_eq_some.mp read
  exact step lexeme.position rest

theorem climbs_expect_plain {token : Token} (plain : token.bracket? = none) :
    (expect token).Climbs most count count := by
  refine climbs_take_plain fun other a read => ?_
  obtain ⟨rfl, -⟩ := Option.ite_none_right_eq_some.mp read
  exact plain

theorem climbs_mark {c : Char} (plain : Token.isBracket c = false) : (mark c).Climbs most count count :=
  climbs_expect_plain (by simp [Token.bracket?, plain])

theorem climbs_keyword (text : String) : (keyword text).Climbs most count count := climbs_expect_plain rfl

theorem climbs_name : name.Climbs most count count := by
  refine climbs_take_plain fun token text read => ?_
  split at read
  · rfl
  · cases read

theorem climbs_opening {c : Char} (opens : Token.opensBracket c = true) :
    (mark c).Climbs most count (count + 1) := by
  refine climbs_expect fun position rest => ?_
  have entered : peak count (⟨position, .mark c⟩ :: rest) = peak (count + 1) rest := by
    simp [peak, Token.bracket?, Token.isBracket, opens, Token.deepest]
  omega

/-- How many brackets are open matters only where one of them is closed. -/
theorem climbs_closing {c : Char} (closes : Token.closesBracket c = true) (opens : Token.opensBracket c = false)
    (fits : count + 1 ≤ most) : (mark c).Climbs most (count + 1) count := by
  refine climbs_expect fun position rest => ?_
  have left : peak (count + 1) (⟨position, .mark c⟩ :: rest) = max (count + 1) (peak count rest) := by
    simp [peak, Token.bracket?, Token.isBracket, opens, closes, Token.deepest]
  omega

theorem climbs_optionally (token : Token) (own : rule.Climbs most count count) :
    (optionally token rule).Climbs most count count := by
  refine (climbs_nextIs token).bind fun _ => .branches ?_ (.pure _)
  exact own.bind fun _ => .pure _

section Repeated

variable (own : rule.Climbs most count count)

include own

theorem climbs_repeatUpTo (goesOn : Option Token → Bool) (times : Nat) :
    (repeatUpTo goesOn rule times).Climbs most count count := by
  induction times with
  | zero => exact .pure _
  | succ times ih =>
    refine climbs_peek?.bind fun _ => .branches ?_ (.pure _)
    exact own.bind fun _ => ih.bind fun _ => .pure _

theorem climbs_repeatWhile (goesOn : Option Token → Bool) : (repeatWhile goesOn rule).Climbs most count count :=
  fun lexemes => climbs_repeatUpTo own goesOn lexemes.length lexemes

theorem climbs_zeroOrMore (close : Char) : (zeroOrMore close rule).Climbs most count count :=
  climbs_repeatWhile own _

theorem climbs_oneOrMore (close : Char) : (oneOrMore close rule).Climbs most count count :=
  own.bind fun _ => (climbs_zeroOrMore own close).bind fun _ => .pure _

theorem climbs_allOf : (allOf rule).Climbs most count count :=
  own.bind fun _ => (climbs_repeatWhile own _).bind fun _ => .pure _

end Repeated

theorem Climbs.of_parse (own : rule.Climbs most 0 0) {text : String} {a : α} (parsed : rule.parse text = .ok a) :
    peak 0 (Token.lexemes .start text.toList).1 ≤ most := by
  unfold parse at parsed
  dsimp only at parsed
  split at parsed
  · cases parsed
  · rename_i outcome
    have bound := own _ _ _ outcome
    have none : peak 0 [] = 0 := rfl
    omega
  · cases parsed

end Rule

open Rule

namespace TypeRef

theorem climbs_nonNullRule (type : TypeRef) {most count : Nat} : (nonNullRule type).Climbs most count count := by
  refine (climbs_nextIs _).bind fun _ => .branches ?_ (.pure _)
  exact (climbs_mark (by decide)).bind fun _ => .pure _

theorem climbs_rule (depth : Nat) {most count : Nat} (fits : count + depth ≤ most) :
    (rule depth).Climbs most count count := by
  induction depth generalizing count with
  | zero => exact climbs_name.bind fun _ => climbs_nonNullRule _
  | succ depth ih =>
    have element : (rule depth).Climbs most (count + 1) (count + 1) := ih (by omega)
    refine (climbs_nextIs _).bind fun _ => .branches ?_ (climbs_name.bind fun _ => climbs_nonNullRule _)
    refine (climbs_opening (by decide)).bind fun _ => element.bind fun _ => ?_
    exact (climbs_closing (by decide) (by decide) (by omega)).bind fun _ => climbs_nonNullRule _

end TypeRef

namespace Value

theorem climbs_simple (constant : Bool) {most count : Nat} : (simple constant).Climbs most count count := by
  refine (climbs_nextIs _).bind fun _ => .branches ?_ ?_
  · exact (climbs_mark (by decide)).bind fun _ => climbs_name.bind fun _ => .pure _
  · refine climbs_take_plain fun token a read => ?_
    cases token with
    | mark c => cases read
    | _ => rfl

theorem climbs_rule (constant : Bool) (depth : Nat) {most count : Nat} (fits : count + depth ≤ most) :
    (rule constant depth).Climbs most count count := by
  induction depth generalizing count with
  | zero => exact climbs_simple constant
  | succ depth ih =>
    have inner : (rule constant depth).Climbs most (count + 1) (count + 1) := ih (by omega)
    refine (climbs_nextIs _).bind fun _ => .branches ?_ ?_
    · refine (climbs_opening (by decide)).bind fun _ => (climbs_zeroOrMore inner _).bind fun _ => ?_
      exact (climbs_closing (by decide) (by decide) (by omega)).bind fun _ => .pure _
    refine (climbs_nextIs _).bind fun _ => .branches ?_ (climbs_simple constant)
    refine (climbs_opening (by decide)).bind fun _ => (climbs_zeroOrMore ?_ _).bind fun _ => ?_
    · exact climbs_name.bind fun _ => (climbs_mark (by decide)).bind fun _ => inner.bind fun _ => .pure _
    · exact (climbs_closing (by decide) (by decide) (by omega)).bind fun _ => .pure _

end Value

variable {depth most count : Nat}

theorem Argument.climbs_rules (fits : count + depth ≤ most) : (rules depth).Climbs most count count := by
  cases depth with
  | zero => exact .pure _
  | succ depth =>
    have value : (Value.rule false depth).Climbs most (count + 1) (count + 1) :=
      Value.climbs_rule false depth (by omega)
    refine (climbs_nextIs _).bind fun _ => .branches ?_ (.pure _)
    refine (climbs_opening (by decide)).bind fun _ => (climbs_oneOrMore ?_ _).bind fun _ => ?_
    · exact climbs_name.bind fun _ => (climbs_mark (by decide)).bind fun _ => value.bind fun _ => .pure _
    · exact (climbs_closing (by decide) (by decide) (by omega)).bind fun _ => .pure _

theorem Directive.climbs_rules (fits : count + depth ≤ most) : (rules depth).Climbs most count count := by
  refine climbs_repeatWhile ?_ _
  refine climbs_position.bind fun _ => (climbs_mark (by decide)).bind fun _ => climbs_name.bind fun _ => ?_
  exact (Argument.climbs_rules fits).bind fun _ => .pure _

namespace Selection

variable {nested : Rule SelectionSet}

theorem climbs_fieldRule (fits : count + depth ≤ most) (below : nested.Climbs most count count) :
    (fieldRule depth nested).Climbs most count count := by
  have label : (do Rule.mark ':'; Rule.name : Rule String).Climbs most count count :=
    (climbs_mark (by decide)).bind fun _ => climbs_name
  refine climbs_position.bind fun _ => climbs_name.bind fun _ => ?_
  refine (climbs_optionally _ label).bind fun _ => (Argument.climbs_rules fits).bind fun _ => ?_
  exact (Directive.climbs_rules fits).bind fun _ => (climbs_optionally _ below).bind fun _ => .pure _

theorem climbs_inlineRule (fits : count + depth ≤ most) (below : nested.Climbs most count count)
    (position : Position) (condition : Option String) :
    (inlineRule depth nested position condition).Climbs most count count :=
  (Directive.climbs_rules fits).bind fun _ => below.bind fun _ => .pure _

theorem climbs_rule (fits : count + depth ≤ most) (below : nested.Climbs most count count) :
    (rule depth nested).Climbs most count count := by
  refine (climbs_nextIs _).bind fun _ => .branches ?_ (climbs_fieldRule fits below)
  refine (climbs_expect_plain rfl).bind fun _ => climbs_position.bind fun position => climbs_peek?.bind fun _ => ?_
  split
  · exact (climbs_keyword _).bind fun _ => climbs_name.bind fun _ => climbs_inlineRule fits below position _
  · exact (climbs_keyword _).bind fun _ => (Directive.climbs_rules fits).bind fun _ => .pure _
  · exact climbs_inlineRule fits below position none

end Selection

theorem SelectionSet.climbs_rule (fits : count + depth ≤ most) : (rule depth).Climbs most count count := by
  induction depth generalizing count with
  | zero => exact climbs_fail
  | succ depth ih =>
    have item : (Selection.rule depth (rule depth)).Climbs most (count + 1) (count + 1) :=
      Selection.climbs_rule (by omega) (ih (by omega))
    refine climbs_position.bind fun _ => (climbs_opening (by decide)).bind fun _ => ?_
    refine (climbs_oneOrMore item _).bind fun _ => climbs_position.bind fun _ => ?_
    exact (climbs_closing (by decide) (by decide) (by omega)).bind fun _ => .pure _

theorem VariableDefinition.climbs_rules (fits : count + depth ≤ most) : (rules depth).Climbs most count count := by
  cases depth with
  | zero => exact .pure _
  | succ depth =>
    have type : (TypeRef.rule depth).Climbs most (count + 1) (count + 1) := TypeRef.climbs_rule depth (by omega)
    have value : (Value.rule true depth).Climbs most (count + 1) (count + 1) :=
      Value.climbs_rule true depth (by omega)
    have initial : (do Rule.mark '='; Value.rule true depth : Rule Value).Climbs most (count + 1) (count + 1) :=
      (climbs_mark (by decide)).bind fun _ => value
    refine (climbs_nextIs _).bind fun _ => .branches ?_ (.pure _)
    refine (climbs_opening (by decide)).bind fun _ => (climbs_oneOrMore ?_ _).bind fun _ => ?_
    · refine climbs_position.bind fun _ => (climbs_mark (by decide)).bind fun _ => climbs_name.bind fun _ => ?_
      refine (climbs_mark (by decide)).bind fun _ => type.bind fun _ => ?_
      exact (climbs_optionally _ initial).bind fun _ => .pure _
    · exact (climbs_closing (by decide) (by decide) (by omega)).bind fun _ => .pure _

theorem Operation.climbs_rule (kind : OperationKind) (fits : count + depth ≤ most) :
    (rule depth kind).Climbs most count count := by
  have name : Rule.operationName.Climbs most count count := by
    refine climbs_peek?.bind fun _ => ?_
    split
    · exact (climbs_keyword _).bind fun _ => .pure _
    · exact .pure _
  rw [rule_eq]
  refine climbs_position.bind fun _ => (climbs_keyword _).bind fun _ => name.bind fun _ => ?_
  refine (VariableDefinition.climbs_rules fits).bind fun _ => (Directive.climbs_rules fits).bind fun _ => ?_
  exact (SelectionSet.climbs_rule fits).bind fun _ => .pure _

theorem Fragment.climbs_rule (fits : count + depth ≤ most) : (rule depth).Climbs most count count := by
  refine climbs_position.bind fun _ => (climbs_keyword _).bind fun _ => climbs_name.bind fun _ => ?_
  refine (climbs_keyword _).bind fun _ => climbs_name.bind fun _ => ?_
  exact (Directive.climbs_rules fits).bind fun _ => (SelectionSet.climbs_rule fits).bind fun _ => .pure _

theorem Definition.climbs_rule (fits : count + depth ≤ most) : (rule depth).Climbs most count count := by
  have operation (kind : OperationKind) :
      (do return .operation (← Operation.rule depth kind) : Rule Definition).Climbs most count count :=
    (Operation.climbs_rule kind fits).bind fun _ => .pure _
  refine climbs_peek?.bind fun _ => ?_
  split
  · exact (SelectionSet.climbs_rule fits).bind fun _ => .pure _
  · exact operation .query
  · exact operation .mutation
  · exact operation .subscription
  · exact (Fragment.climbs_rule fits).bind fun _ => .pure _
  · exact climbs_fail

/-- A text that is read as a document never has more brackets open than the parser allows. -/
theorem Document.deepest_le_of_parse {text : String} {document : Document} (parsed : Document.parse text = .ok document)
    {tokens : List Token} (lexes : Token.Lexes text.toList tokens) :
    Token.deepest 0 (tokens.filterMap Token.bracket?) ≤ Token.nestingLimit := by
  obtain ⟨definitions, read, -⟩ := bind_eq_ok.mp parsed
  have bound := (climbs_allOf (Definition.climbs_rule (Nat.le_of_eq (Nat.zero_add _)))).of_parse read
  rwa [peak, lexes .start] at bound

end QueryTypes
