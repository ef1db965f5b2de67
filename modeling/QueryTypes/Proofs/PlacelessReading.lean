import QueryTypes.Proofs.ReadDocuments
import QueryTypes.Proofs.Unplaced

namespace QueryTypes

namespace Rule

variable {α β γ δ : Type} {view : α → γ} {rule other : Rule α}

/-- From lexemes with the same tokens, the rules read what is the same to the view and leave lexemes with
    the same tokens, or both fail. -/
def Agree (view : α → γ) (rule other : Rule α) : Prop :=
  ∀ lexemes others : List Lexeme, lexemes.map Lexeme.token = others.map Lexeme.token →
    match rule lexemes, other others with
    | .ok (a, rest), .ok (b, remains) => view a = view b ∧ rest.map Lexeme.token = remains.map Lexeme.token
    | .error _, .error _ => True
    | _, _ => False

theorem Agree.pure {a b : α} (same : view a = view b) : Agree view (Pure.pure a) (Pure.pure b) :=
  fun _ _ tokens => ⟨same, tokens⟩

theorem Agree.bind {next further : α → Rule β} {sight : β → δ} (first : Agree view rule other)
    (onward : ∀ a b, view a = view b → Agree sight (next a) (further b)) :
    Agree sight (rule >>= next) (other >>= further) := by
  intro lexemes others tokens
  have own := first lexemes others tokens
  rw [bind_apply, bind_apply]
  cases outcome : rule lexemes with
  | error failed =>
    cases otherwise : other others with
    | error => trivial
    | ok result =>
      rw [outcome, otherwise] at own
      exact own.elim
  | ok result =>
    cases otherwise : other others with
    | error =>
      rw [outcome, otherwise] at own
      exact own.elim
    | ok otherResult =>
      rw [outcome, otherwise] at own
      exact onward _ _ own.1 _ _ own.2

theorem Agree.bindEq {next further : α → Rule β} {sight : β → δ} (first : Agree id rule other)
    (onward : ∀ a, Agree sight (next a) (further a)) : Agree sight (rule >>= next) (other >>= further) := by
  refine first.bind fun a b same => ?_
  cases (show a = b from same)
  exact onward a

theorem Agree.branches {condition : Bool} {yes no otherYes otherNo : Rule α}
    (whenTrue : Agree view yes otherYes) (whenFalse : Agree view no otherNo) :
    Agree view (if condition then yes else no) (if condition then otherYes else otherNo) := by
  cases condition with
  | false => exact whenFalse
  | true => exact whenTrue

theorem agree_fail : Agree view (fail : Rule α) fail := fun _ _ _ => trivial

theorem agree_peek? : Agree id peek? peek? := by
  intro lexemes others tokens
  refine ⟨?_, tokens⟩
  rw [id, id, ← List.head?_map, ← List.head?_map, tokens]

theorem agree_nextIs (token : Token) : Agree id (nextIs token) (nextIs token) := by
  intro lexemes others tokens
  refine ⟨?_, tokens⟩
  rw [id, id, ← List.head?_map, ← List.head?_map, tokens]

/-- Places are the only thing that differs. -/
theorem agree_position : Agree (fun _ => ()) position position := fun _ _ tokens => ⟨rfl, tokens⟩

theorem agree_take (meaning : Token → Option α) : Agree id (take meaning) (take meaning) := by
  intro lexemes others tokens
  cases lexemes with
  | nil =>
    cases List.map_eq_nil_iff.mp tokens.symm
    trivial
  | cons lexeme rest =>
    cases others with
    | nil => cases tokens
    | cons otherLexeme remains =>
      obtain ⟨same, onward⟩ := List.cons.inj tokens
      rw [take, take, same]
      cases meaning otherLexeme.token with
      | none => trivial
      | some a => exact ⟨rfl, onward⟩

theorem agree_expect (token : Token) : Agree id (expect token) (expect token) := agree_take _

theorem agree_mark (c : Char) : Agree id (mark c) (mark c) := agree_expect _

theorem agree_keyword (text : String) : Agree id (keyword text) (keyword text) := agree_expect _

theorem agree_name : Agree id name name := agree_take _

theorem agree_optionally (token : Token) (own : Agree view rule other) :
    Agree (Option.map view) (optionally token rule) (optionally token other) := by
  refine (agree_nextIs token).bindEq fun isNext => .branches ?_ (.pure rfl)
  exact own.bind fun a b same => .pure (congrArg some same)

section Repeated

variable (goesOn : Option Token → Bool) (own : Agree view rule other)

include own

theorem agree_repeatUpTo (count : Nat) :
    Agree (List.map view) (repeatUpTo goesOn rule count) (repeatUpTo goesOn other count) := by
  induction count with
  | zero => exact .pure rfl
  | succ count ih =>
    refine agree_peek?.bindEq fun next => .branches ?_ (.pure rfl)
    refine own.bind fun a b same => ih.bind fun rest remains onward => .pure ?_
    rw [List.map_cons, List.map_cons, same, onward]

theorem agree_repeatWhile : Agree (List.map view) (repeatWhile goesOn rule) (repeatWhile goesOn other) := by
  intro lexemes others tokens
  have length : lexemes.length = others.length := by simpa using congrArg List.length tokens
  unfold repeatWhile
  rw [length]
  exact agree_repeatUpTo goesOn own others.length lexemes others tokens

omit goesOn

theorem agree_zeroOrMore (close : Char) : Agree (List.map view) (zeroOrMore close rule) (zeroOrMore close other) :=
  agree_repeatWhile _ own

theorem agree_oneOrMore (close : Char) : Agree (List.map view) (oneOrMore close rule) (oneOrMore close other) := by
  refine own.bind fun a b same => (agree_zeroOrMore own close).bind fun rest remains onward => .pure ?_
  rw [List.map_cons, List.map_cons, same, onward]

theorem agree_allOf : Agree (List.map view) (allOf rule) (allOf other) := by
  refine own.bind fun a b same => (agree_repeatWhile _ own).bind fun rest remains onward => .pure ?_
  rw [List.map_cons, List.map_cons, same, onward]

end Repeated

/-- Texts with the same tokens are read as the same, or neither is read. -/
theorem Agree.parse (own : Agree view rule rule) {text otherText : String} {tokens : List Token}
    (lexes : Token.Lexes text.toList tokens) (otherLexes : Token.Lexes otherText.toList tokens) :
    (rule.parse text).toOption.map view = (rule.parse otherText).toOption.map view := by
  have read := own _ _ ((lexes .start).trans (otherLexes .start).symm)
  unfold Rule.parse
  dsimp only
  split at read
  · rename_i a rest b remains outcome otherwise
    rw [outcome, otherwise]
    cases rest with
    | nil =>
      cases List.map_eq_nil_iff.mp read.2.symm
      exact congrArg some read.1
    | cons lexeme rest =>
      cases remains with
      | nil => cases read.2
      | cons otherLexeme remains => rfl
  · rename_i outcome otherwise
    rw [outcome, otherwise]
    rfl
  · exact read.elim

end Rule

open Rule

namespace TypeRef

theorem agree_nonNullRule (type : TypeRef) : Agree id (nonNullRule type) (nonNullRule type) := by
  refine (agree_nextIs _).bindEq fun _ => .branches ?_ (.pure rfl)
  exact (agree_mark '!').bindEq fun _ => .pure rfl

theorem agree_rule (depth : Nat) : Agree id (rule depth) (rule depth) := by
  have plain : Agree id (do nonNullRule (.named (← Rule.name))) (do nonNullRule (.named (← Rule.name))) :=
    agree_name.bindEq fun _ => agree_nonNullRule _
  induction depth with
  | zero => exact plain
  | succ depth ih =>
    refine (agree_nextIs _).bindEq fun _ => .branches ?_ plain
    refine (agree_mark '[').bindEq fun _ => ih.bindEq fun _ => ?_
    exact (agree_mark ']').bindEq fun _ => agree_nonNullRule _

end TypeRef

namespace Value

theorem agree_simple (constant : Bool) : Agree id (simple constant) (simple constant) := by
  refine (agree_nextIs _).bindEq fun _ => .branches ?_ (agree_take _)
  exact (agree_mark '$').bindEq fun _ => agree_name.bindEq fun _ => .pure rfl

theorem agree_rule (constant : Bool) (depth : Nat) : Agree id (rule constant depth) (rule constant depth) := by
  induction depth with
  | zero => exact agree_simple constant
  | succ depth ih =>
    have elements := agree_zeroOrMore ih ']'
    have entry : Agree id (do
        let key ← Rule.name
        Rule.mark ':'
        return (key, ← rule constant depth)) (do
        let key ← Rule.name
        Rule.mark ':'
        return (key, ← rule constant depth)) :=
      agree_name.bindEq fun _ => (agree_mark ':').bindEq fun _ => ih.bindEq fun _ => .pure rfl
    have entries := agree_zeroOrMore entry '}'
    rw [List.map_id_fun] at elements entries
    refine (agree_nextIs _).bindEq fun _ => .branches ?_ ?_
    · refine (agree_mark '[').bindEq fun _ => elements.bindEq fun _ => ?_
      exact (agree_mark ']').bindEq fun _ => .pure rfl
    refine (agree_nextIs _).bindEq fun _ => .branches ?_ (agree_simple constant)
    refine (agree_mark '{').bindEq fun _ => entries.bindEq fun _ => ?_
    exact (agree_mark '}').bindEq fun _ => .pure rfl

end Value

theorem Argument.agree_rules (depth : Nat) : Agree id (rules depth) (rules depth) := by
  cases depth with
  | zero => exact .pure rfl
  | succ depth =>
    have argument : Agree id (do
        let name ← Rule.name
        Rule.mark ':'
        return (⟨name, ← Value.rule false depth⟩ : Argument)) (do
        let name ← Rule.name
        Rule.mark ':'
        return (⟨name, ← Value.rule false depth⟩ : Argument)) :=
      agree_name.bindEq fun _ => (agree_mark ':').bindEq fun _ =>
        (Value.agree_rule false depth).bindEq fun _ => .pure rfl
    have arguments := agree_oneOrMore argument ')'
    rw [List.map_id_fun] at arguments
    refine (agree_nextIs _).bindEq fun _ => .branches ?_ (.pure rfl)
    refine (agree_mark '(').bindEq fun _ => arguments.bindEq fun _ => ?_
    exact (agree_mark ')').bindEq fun _ => .pure rfl

theorem Directive.agree_rules (depth : Nat) : Agree (List.map unplaced) (rules depth) (rules depth) := by
  apply agree_repeatWhile
  refine agree_position.bind fun _ _ _ => (agree_mark '@').bindEq fun _ => agree_name.bindEq fun _ => ?_
  exact (Argument.agree_rules depth).bindEq fun _ => .pure rfl

namespace Selection

variable {depth : Nat} {nested : Rule SelectionSet}

theorem agree_fieldRule (below : Agree SelectionSet.unplaced nested nested) :
    Agree unplaced (fieldRule depth nested) (fieldRule depth nested) := by
  have label : Agree id (do Rule.mark ':'; Rule.name) (do Rule.mark ':'; Rule.name) :=
    (agree_mark ':').bindEq fun _ => agree_name
  have optional := agree_optionally (.mark ':') label
  rw [Option.map_id_fun] at optional
  refine agree_position.bind fun position otherPosition _ => agree_name.bindEq fun first => ?_
  refine optional.bindEq fun other => (Argument.agree_rules depth).bindEq fun arguments => ?_
  refine (Directive.agree_rules depth).bind fun directives otherDirectives same => ?_
  refine (agree_optionally _ below).bind fun set? otherSet? sets => .pure ?_
  have items : unplacedAll (set?.getD ⟨.point position, []⟩).items =
      unplacedAll (otherSet?.getD ⟨.point otherPosition, []⟩).items := by
    cases set? with
    | none =>
      cases otherSet? with
      | none => rfl
      | some otherSet => cases sets
    | some set =>
      cases otherSet? with
      | none => cases sets
      | some otherSet => exact congrArg SelectionSet.items (Option.some.inj sets)
  cases other with
  | none => simp only [unplaced, FieldHead.unplaced, same, items]
  | some name => simp only [unplaced, FieldHead.unplaced, same, items]

theorem agree_inlineRule (below : Agree SelectionSet.unplaced nested nested) (position otherPosition : Position)
    (condition : Option String) :
    Agree unplaced (inlineRule depth nested position condition) (inlineRule depth nested otherPosition condition) := by
  refine (Directive.agree_rules depth).bind fun directives otherDirectives same => ?_
  refine below.bind fun set otherSet sets => .pure ?_
  have items : unplacedAll set.items = unplacedAll otherSet.items := congrArg SelectionSet.items sets
  simp only [unplaced, InlineHead.unplaced, same, items]

theorem agree_rule (below : Agree SelectionSet.unplaced nested nested) :
    Agree unplaced (rule depth nested) (rule depth nested) := by
  refine (agree_nextIs _).bindEq fun _ => .branches ?_ (agree_fieldRule below)
  refine (agree_expect _).bindEq fun _ => agree_position.bind fun position otherPosition _ => ?_
  refine agree_peek?.bindEq fun next => ?_
  split
  · refine (agree_keyword _).bindEq fun _ => agree_name.bindEq fun condition => ?_
    exact agree_inlineRule below position otherPosition _
  · refine (agree_keyword _).bindEq fun _ => (Directive.agree_rules depth).bind fun _ _ same => .pure ?_
    simp only [unplaced, FragmentSpread.unplaced, same]
  · exact agree_inlineRule below position otherPosition none

theorem unplacedAll_eq (selections : List Selection) : unplacedAll selections = selections.map unplaced := by
  induction selections with
  | nil => rfl
  | cons selection rest ih => rw [unplacedAll, ih, List.map_cons]

end Selection

theorem SelectionSet.agree_rule (depth : Nat) : Agree unplaced (rule depth) (rule depth) := by
  induction depth with
  | zero => exact agree_fail
  | succ depth ih =>
    refine agree_position.bind fun _ _ _ => (agree_mark '{').bindEq fun _ => ?_
    refine (agree_oneOrMore (Selection.agree_rule ih) '}').bind fun items otherItems same => ?_
    refine agree_position.bind fun _ _ _ => (agree_mark '}').bindEq fun _ => .pure ?_
    simp only [unplaced, Selection.unplacedAll_eq, same]

theorem VariableDefinition.agree_rules (depth : Nat) : Agree (List.map unplaced) (rules depth) (rules depth) := by
  cases depth with
  | zero => exact .pure rfl
  | succ depth =>
    have initial : Agree id (do Rule.mark '='; Value.rule true depth) (do Rule.mark '='; Value.rule true depth) :=
      (agree_mark '=').bindEq fun _ => Value.agree_rule true depth
    have optional := agree_optionally (.mark '=') initial
    rw [Option.map_id_fun] at optional
    have definition (position otherPosition : Position) : Agree unplaced (do
        Rule.mark '$'
        let name ← Rule.name
        Rule.mark ':'
        let type ← TypeRef.rule depth
        let initial ← Rule.optionally (.mark '=') (do Rule.mark '='; Value.rule true depth)
        return ⟨position, name, type, initial⟩) (do
        Rule.mark '$'
        let name ← Rule.name
        Rule.mark ':'
        let type ← TypeRef.rule depth
        let initial ← Rule.optionally (.mark '=') (do Rule.mark '='; Value.rule true depth)
        return ⟨otherPosition, name, type, initial⟩) := by
      refine (agree_mark '$').bindEq fun _ => agree_name.bindEq fun _ => (agree_mark ':').bindEq fun _ => ?_
      exact (TypeRef.agree_rule depth).bindEq fun _ => optional.bindEq fun _ => .pure rfl
    have placed := agree_oneOrMore (agree_position.bind fun position other _ => definition position other) ')'
    refine (agree_nextIs _).bindEq fun _ => .branches ?_ (.pure rfl)
    refine (agree_mark '(').bindEq fun _ => placed.bind fun _ _ same => ?_
    exact (agree_mark ')').bindEq fun _ => .pure same

theorem Operation.agree_rule (depth : Nat) (kind : OperationKind) :
    Agree unplaced (rule depth kind) (rule depth kind) := by
  have name : Agree id Rule.operationName Rule.operationName := by
    refine agree_peek?.bindEq fun next => ?_
    split
    · exact (agree_keyword _).bindEq fun _ => .pure rfl
    · exact .pure rfl
  rw [rule_eq]
  refine agree_position.bind fun _ _ _ => (agree_keyword _).bindEq fun _ => name.bindEq fun _ => ?_
  refine (VariableDefinition.agree_rules depth).bind fun _ _ parameters => ?_
  refine (Directive.agree_rules depth).bind fun _ _ directives => ?_
  refine (SelectionSet.agree_rule depth).bind fun _ _ sets => .pure ?_
  simp only [unplaced, Option.map_some, OperationHead.unplaced, parameters, directives, sets]

theorem Fragment.agree_rule (depth : Nat) : Agree unplaced (rule depth) (rule depth) := by
  refine agree_position.bind fun _ _ _ => (agree_keyword _).bindEq fun _ => agree_name.bindEq fun _ => ?_
  refine (agree_keyword _).bindEq fun _ => agree_name.bindEq fun _ => ?_
  refine (Directive.agree_rules depth).bind fun _ _ directives => ?_
  refine (SelectionSet.agree_rule depth).bind fun _ _ sets => .pure ?_
  simp only [unplaced, directives, sets]

def Definition.unplaced : Definition → Definition
  | .operation o => .operation o.unplaced
  | .fragment f => .fragment f.unplaced

def Document.unplaced (document : Document) : Document := ⟨document.definitions.map Definition.unplaced⟩

theorem Definition.agree_rule (depth : Nat) : Agree unplaced (rule depth) (rule depth) := by
  have operation (kind : OperationKind) : Agree unplaced (do return .operation (← Operation.rule depth kind))
      (do return .operation (← Operation.rule depth kind)) :=
    (Operation.agree_rule depth kind).bind fun _ _ same => .pure (congrArg Definition.operation same)
  refine agree_peek?.bindEq fun next => ?_
  split
  · refine (SelectionSet.agree_rule depth).bind fun _ _ sets => .pure ?_
    simp only [unplaced, Operation.unplaced, Option.map_none, sets]
  · exact operation .query
  · exact operation .mutation
  · exact operation .subscription
  · exact (Fragment.agree_rule depth).bind fun _ _ same => .pure (congrArg Definition.fragment same)
  · exact agree_fail

/-- Texts with the same tokens are read as the same document without places, or neither is read. -/
theorem Document.unplaced_parse_congr {text other : String} {tokens : List Token}
    (lexes : Token.Lexes text.toList tokens) (otherLexes : Token.Lexes other.toList tokens) :
    (Document.parse text).toOption.map unplaced = (Document.parse other).toOption.map unplaced := by
  have definitions := (agree_allOf (Definition.agree_rule Token.nestingLimit)).parse lexes otherLexes
  have whole (text : String) : (Document.parse text).toOption.map unplaced =
      ((Rule.parse (Rule.allOf (Definition.rule Token.nestingLimit)) text).toOption.map
        (List.map Definition.unplaced)).map Document.mk := by
    unfold Document.parse
    cases Rule.parse (Rule.allOf (Definition.rule Token.nestingLimit)) text <;> rfl
  rw [whole, whole, definitions]

end QueryTypes
