import QueryTypes.Proofs.Discriminators
import QueryTypes.Proofs.Emitting
import QueryTypes.Proofs.Printing
import QueryTypes.Proofs.Settled

namespace QueryTypes

open Rule (Ensures)

variable {depth : Nat}

structure FieldHead.Readable (depth : Nat) (head : FieldHead) : Prop where
  label : ∀ label ∈ head.label, isName label = true
  isName : isName head.name = true
  arguments : ∀ argument ∈ head.arguments, argument.Readable depth
  directives : ∀ directive ∈ head.directives, directive.Readable depth

structure InlineHead.Readable (depth : Nat) (head : InlineHead) : Prop where
  condition : ∀ condition ∈ head.condition, isName condition = true
  directives : ∀ directive ∈ head.directives, directive.Readable depth

/-- The word behind the dots is not the one that starts a type condition. -/
structure FragmentSpread.Readable (depth : Nat) (spread : FragmentSpread) : Prop where
  isName : isName spread.name = true
  other : spread.name ≠ "on"
  directives : ∀ directive ∈ spread.directives, directive.Readable depth

/-- A selection that could have been read with at most `depth` further brackets. -/
inductive Selection.Readable : Nat → Selection → Prop where
  | leaf {depth : Nat} {head : FieldHead} {span : Span} (own : head.Readable depth) :
    Readable depth (.field head span [])
  | field {depth : Nat} {head : FieldHead} {span : Span} {selections : List Selection}
    (own : head.Readable (depth + 1)) (filled : selections ≠ [])
    (each : ∀ selection ∈ selections, Readable depth selection) :
    Readable (depth + 1) (.field head span selections)
  | inline {depth : Nat} {head : InlineHead} {span : Span} {selections : List Selection}
    (own : head.Readable (depth + 1)) (filled : selections ≠ [])
    (each : ∀ selection ∈ selections, Readable depth selection) :
    Readable (depth + 1) (.inline head span selections)
  | spread {depth : Nat} {spread : FragmentSpread} (own : spread.Readable depth) : Readable depth (.spread spread)

def SelectionSet.Readable : Nat → SelectionSet → Prop
  | 0, _ => False
  | depth + 1, set => set.items ≠ [] ∧ ∀ selection ∈ set.items, selection.Readable depth

def VariableDefinition.Readable : Nat → VariableDefinition → Prop
  | 0, _ => False
  | depth + 1, definition =>
    isName definition.name = true ∧ (definition.type.Readable ∧ definition.type.height ≤ depth) ∧
      ∀ value ∈ definition.initial, value.Readable true depth

structure OperationHead.Readable (depth : Nat) (head : OperationHead) : Prop where
  isName : ∀ name ∈ head.name, isName name = true
  parameters : ∀ definition ∈ head.parameters, definition.Readable depth
  directives : ∀ directive ∈ head.directives, directive.Readable depth

structure Operation.Readable (depth : Nat) (operation : Operation) : Prop where
  head : ∀ head ∈ operation.head, head.Readable depth
  selectionSet : operation.selectionSet.Readable depth

structure Fragment.Readable (depth : Nat) (fragment : Fragment) : Prop where
  isName : isName fragment.name = true
  condition : QueryTypes.isName fragment.condition = true
  directives : ∀ directive ∈ fragment.directives, directive.Readable depth
  selectionSet : fragment.selectionSet.Readable depth

/-- A definition that could have been read with at most `depth` brackets. -/
def Definition.Readable (depth : Nat) : Definition → Prop
  | .operation o => o.Readable depth
  | .fragment f => f.Readable depth

section Rules

def Rule.operationName : Rule (Option String) := do
  match ← Rule.peek? with
  | some (.name name) => do Rule.keyword name; pure (some name)
  | _ => pure none

theorem Operation.rule_eq (depth : Nat) (kind : OperationKind) : rule depth kind = do
    let position ← Rule.position
    Rule.keyword kind.keyword
    let name ← Rule.operationName
    let parameters ← VariableDefinition.rules depth
    let directives ← Directive.rules depth
    let selectionSet ← SelectionSet.rule depth
    return ⟨position, some ⟨kind, name, parameters, directives⟩, selectionSet⟩ := by
  unfold rule
  congr 1
  funext position
  congr 1
  funext _ lexemes
  cases lexemes with
  | nil => rfl
  | cons lexeme rest =>
    obtain ⟨place, token⟩ := lexeme
    cases token with
    | name text =>
      unfold Rule.operationName
      simp only [Rule.bind_apply, Rule.peek?, List.head?_cons, Option.map_some]
      cases Rule.keyword text (⟨place, .name text⟩ :: rest) <;> rfl
    | _ => rfl

theorem TypeRef.ensures_height (depth : Nat) :
    (rule depth).Ensures fun type => type.height ≤ depth := by
  have optional {depth : Nat} {type : TypeRef} (fits : type.height ≤ depth) :
      (nonNullRule type).Ensures fun type => type.height ≤ depth := by
    refine (Rule.ensures_nextIs _).andThen fun _ => .of_branches ?_ (.pure fits)
    exact (Rule.ensures_mark '!').andThen fun _ => .pure fits
  have named (depth : Nat) : (do nonNullRule (.named (← Rule.name)) : Rule TypeRef).Ensures
      fun type => type.height ≤ depth :=
    Rule.ensures_name.andThen fun _ => optional (Nat.zero_le depth)
  induction depth with
  | zero => exact named 0
  | succ depth ih =>
    refine (Rule.ensures_nextIs _).andThen fun _ => .of_branches ?_ (named _)
    refine (Rule.ensures_mark '[').andThen fun _ => ih.bind fun element fits => ?_
    exact (Rule.ensures_mark ']').andThen fun _ => optional (Nat.succ_le_succ fits)

namespace Selection

variable {nested : Rule SelectionSet}

theorem readable_field {head : FieldHead} (own : head.Readable depth) {set? : Option SelectionSet}
    (below : ∀ set ∈ set?, set.Readable depth) (position : Position) :
    (Selection.field head (set?.getD ⟨.point position, []⟩).span
      (set?.getD ⟨.point position, []⟩).items).Readable depth := by
  cases set? with
  | none => exact .leaf own
  | some set =>
    have inside := below set rfl
    cases depth with
    | zero => exact inside.elim
    | succ depth => exact .field own inside.1 inside.2

theorem ensures_fieldRule (below : nested.Ensures (SelectionSet.Readable depth)) :
    (fieldRule depth nested).Ensures (Readable depth) := by
  have labelled : (do Rule.mark ':'; Rule.name : Rule String).Ensures fun name => isName name = true :=
    (Rule.ensures_mark ':').andThen fun _ => Rule.ensures_name
  refine Rule.ensures_position.andThen fun position => Rule.ensures_name.bind fun first isName => ?_
  refine (Rule.ensures_optionally _ labelled).bind fun other isOther => ?_
  refine (Argument.ensures_rules depth).bind fun arguments eachArgument => ?_
  refine (Directive.ensures_rules depth).bind fun directives eachDirective => ?_
  refine (Rule.ensures_optionally _ below).bind fun set? readable => .pure ?_
  cases other with
  | none =>
    have own : FieldHead.Readable depth ⟨position, none, first, arguments, directives⟩ :=
      ⟨nofun, isName, eachArgument, eachDirective⟩
    exact readable_field own readable position
  | some name =>
    have label : ∀ label ∈ some first, QueryTypes.isName label = true := by
      rintro _ ⟨⟩
      exact isName
    have own : FieldHead.Readable depth ⟨position, some first, name, arguments, directives⟩ :=
      ⟨label, isOther name rfl, eachArgument, eachDirective⟩
    exact readable_field own readable position

theorem ensures_inlineRule (below : nested.Ensures (SelectionSet.Readable depth)) (position : Position)
    {condition : Option String} (isName : ∀ name ∈ condition, isName name = true) :
    (inlineRule depth nested position condition).Ensures (Readable depth) := by
  refine (Directive.ensures_rules depth).bind fun directives each => below.bind fun set inside => .pure ?_
  cases depth with
  | zero => exact inside.elim
  | succ depth => exact .inline ⟨isName, each⟩ inside.1 inside.2

theorem ensures_rule (below : nested.Ensures (SelectionSet.Readable depth)) :
    (rule depth nested).Ensures (Readable depth) := by
  refine (Rule.ensures_nextIs _).andThen fun _ => .of_branches ?_ (ensures_fieldRule below)
  refine (Rule.ensures_expect _).andThen fun _ => Rule.ensures_position.andThen fun position => ?_
  refine Rule.ensures_peek?.bind fun next formed => ?_
  split
  · refine (Rule.ensures_keyword _).andThen fun _ => Rule.ensures_name.bind fun condition isName => ?_
    refine ensures_inlineRule below position ?_
    rintro _ ⟨⟩
    exact isName
  · rename_i name other
    refine (Rule.ensures_keyword _).andThen fun _ => (Directive.ensures_rules depth).bind fun directives each => ?_
    exact .pure (.spread ⟨formed _ rfl, fun same => other (same ▸ rfl), each⟩)
  · exact ensures_inlineRule below position nofun

end Selection

theorem SelectionSet.ensures_rule (depth : Nat) : (rule depth).Ensures (Readable depth) := by
  induction depth with
  | zero => exact fun _ _ => trivial
  | succ depth ih =>
    refine Rule.ensures_position.andThen fun _ => (Rule.ensures_mark '{').andThen fun _ => ?_
    refine (Rule.ensures_oneOrMore '}' (Selection.ensures_rule ih)).bind fun items each => ?_
    exact Rule.ensures_position.andThen fun _ => (Rule.ensures_mark '}').andThen fun _ => .pure each

theorem VariableDefinition.ensures_rules (depth : Nat) :
    (rules depth).Ensures fun parameters => ∀ definition ∈ parameters, definition.Readable depth := by
  cases depth with
  | zero => exact .pure nofun
  | succ depth =>
    refine (Rule.ensures_nextIs _).andThen fun _ => .of_branches ?_ (.pure nofun)
    have initial : (do Rule.mark '='; Value.rule true depth : Rule Value).Ensures (Value.Readable true depth) :=
      (Rule.ensures_mark '=').andThen fun _ => Value.ensures_rule true depth
    have definition : (do
        let position ← Rule.position
        Rule.mark '$'
        let name ← Rule.name
        Rule.mark ':'
        let type ← TypeRef.rule depth
        let initial ← Rule.optionally (.mark '=') (do Rule.mark '='; Value.rule true depth)
        return ⟨position, name, type, initial⟩ : Rule VariableDefinition).Ensures (Readable (depth + 1)) := by
      refine Rule.ensures_position.andThen fun _ => (Rule.ensures_mark '$').andThen fun _ => ?_
      refine Rule.ensures_name.bind fun _ isName => (Rule.ensures_mark ':').andThen fun _ => ?_
      refine ((TypeRef.ensures_rule depth).and (TypeRef.ensures_height depth)).bind fun _ readable => ?_
      exact (Rule.ensures_optionally _ initial).bind fun _ each => .pure ⟨isName, readable, each⟩
    refine (Rule.ensures_mark '(').andThen fun _ => (Rule.ensures_oneOrMore ')' definition).bind fun _ each => ?_
    exact (Rule.ensures_mark ')').andThen fun _ => .pure each.2

theorem Operation.ensures_rule (depth : Nat) (kind : OperationKind) : (rule depth kind).Ensures (Readable depth) := by
  have named : Rule.operationName.Ensures fun name => ∀ text ∈ name, isName text = true := by
    refine Rule.ensures_peek?.bind fun next formed => ?_
    split
    · refine (Rule.ensures_keyword _).andThen fun _ => .pure ?_
      rintro _ ⟨⟩
      exact formed _ rfl
    · exact .pure nofun
  rw [rule_eq]
  refine Rule.ensures_position.andThen fun _ => (Rule.ensures_keyword _).andThen fun _ => ?_
  refine named.bind fun name isName => (VariableDefinition.ensures_rules depth).bind fun parameters each => ?_
  refine (Directive.ensures_rules depth).bind fun directives eachDirective => ?_
  refine (SelectionSet.ensures_rule depth).bind fun set readable => .pure ⟨?_, readable⟩
  rintro _ ⟨⟩
  exact ⟨isName, each, eachDirective⟩

theorem Fragment.ensures_rule (depth : Nat) : (rule depth).Ensures (Readable depth) := by
  refine Rule.ensures_position.andThen fun _ => (Rule.ensures_keyword _).andThen fun _ => ?_
  refine Rule.ensures_name.bind fun _ isName => (Rule.ensures_keyword _).andThen fun _ => ?_
  refine Rule.ensures_name.bind fun _ condition => (Directive.ensures_rules depth).bind fun _ each => ?_
  exact (SelectionSet.ensures_rule depth).bind fun _ readable => .pure ⟨isName, condition, each, readable⟩

theorem Definition.ensures_rule (depth : Nat) : (rule depth).Ensures (Readable depth) := by
  refine Rule.ensures_peek?.andThen fun next => ?_
  have operation (kind : OperationKind) :
      (do return .operation (← Operation.rule depth kind) : Rule Definition).Ensures (Readable depth) :=
    (Operation.ensures_rule depth kind).bind fun _ readable => .pure readable
  split
  · exact (SelectionSet.ensures_rule depth).bind fun _ readable => .pure ⟨nofun, readable⟩
  · exact operation .query
  · exact operation .mutation
  · exact operation .subscription
  · exact (Fragment.ensures_rule depth).bind fun _ readable => .pure readable
  · exact fun _ _ => trivial

end Rules

theorem Definition.Readable.selections {definition : Definition} (readable : definition.Readable depth) :
    ∃ below, ∀ selection ∈ definition.selections, selection.Readable below := by
  have set : ∃ set : SelectionSet, set.items = definition.selections ∧ set.Readable depth := by
    cases definition with
    | operation o => exact ⟨o.selectionSet, rfl, readable.selectionSet⟩
    | fragment f => exact ⟨f.selectionSet, rfl, readable.selectionSet⟩
  obtain ⟨set, same, inside⟩ := set
  cases depth with
  | zero => exact inside.elim
  | succ depth => exact ⟨depth, same ▸ inside.2⟩

def Document.IsRead (document : Document) : Prop :=
  ∀ definition ∈ document.definitions, ∃ text whole, Document.parse text = .ok whole ∧ definition ∈ whole.definitions

theorem Document.readable_of_parse {text : String} {document : Document} (parsed : Document.parse text = .ok document)
    {definition : Definition} (member : definition ∈ document.definitions) :
    definition.Readable Token.nestingLimit := by
  obtain ⟨definitions, read, done⟩ := bind_eq_ok.mp parsed
  cases done
  exact (Rule.ensures_allOf (Definition.ensures_rule _)).of_parse read definition member

namespace Discriminator

variable {schema : Schema}

theorem readable_discriminator (position : Position) : (Selection.discriminator position).Readable depth :=
  .leaf ⟨nofun, show isName typenameField = true by decide, nofun, nofun⟩

theorem readable_place {parent : Option TypeDefinition} {position : Position} {selections : List Selection}
    (each : ∀ selection ∈ selections, selection.Readable depth) :
    ∀ selection ∈ place schema parent position selections, selection.Readable depth := by
  intro selection member
  unfold place at member
  split at member
  · exact each selection member
  · rcases mem_hoist member with isOld | rfl
    · exact each selection isOld
    · exact readable_discriminator position

theorem readable_added {selections : List Selection} (filled : selections ≠ [])
    (each : ∀ selection ∈ selections, ∀ parent, (addBelow schema parent selection).Readable depth)
    (parent : Option TypeDefinition) (position : Position) :
    place schema parent position (addBelowAll schema parent selections) ≠ [] ∧
      ∀ selection ∈ place schema parent position (addBelowAll schema parent selections),
        selection.Readable depth := by
  rw [addBelowAll_eq]
  refine ⟨place_ne_nil (by simpa using filled), readable_place ?_⟩
  intro selection member
  obtain ⟨old, listed, rfl⟩ := List.mem_map.mp member
  exact each old listed parent

theorem readable_addBelow {selection : Selection} (readable : selection.Readable depth)
    (parent : Option TypeDefinition) : (addBelow schema parent selection).Readable depth := by
  induction readable generalizing parent with
  | leaf own =>
    rw [addBelow]
    exact .leaf own
  | field own filled each ih =>
    rw [addBelow]
    have below := readable_added filled ih
    exact .field own (below _ _).1 (below _ _).2
  | inline own filled each ih =>
    rw [addBelow]
    have below := readable_added filled ih
    exact .inline own (below _ _).1 (below _ _).2
  | spread own =>
    rw [addBelow]
    exact .spread own

theorem readable_addToSet {set : SelectionSet} (readable : set.Readable depth) (parent : Option TypeDefinition) :
    (addToSet schema parent set).Readable depth := by
  cases depth with
  | zero => exact readable
  | succ depth => exact readable_added readable.1 (fun _ listed => readable_addBelow (readable.2 _ listed)) _ _

theorem readable_decorate {definition : Definition} (readable : definition.Readable depth) :
    (decorate schema definition).Readable depth := by
  cases definition with
  | operation o => exact ⟨readable.head, readable_addToSet readable.selectionSet _⟩
  | fragment f =>
    exact ⟨readable.isName, readable.condition, readable.directives, readable_addToSet readable.selectionSet _⟩

end Discriminator

namespace Document

/-- Every definition could have been read. -/
def Readable (document : Document) : Prop :=
  ∀ definition ∈ document.definitions, definition.Readable Token.nestingLimit

theorem IsRead.readable {document : Document} (isRead : document.IsRead) : document.Readable := by
  intro definition member
  obtain ⟨text, whole, parsed, inWhole⟩ := isRead definition member
  exact readable_of_parse parsed inWhole

theorem Readable.prepare {schema : Schema} {document prepared : Document} {adds : Bool}
    (readable : document.Readable) (prepares : document.prepare schema adds = .ok prepared) : prepared.Readable := by
  unfold Document.prepare at prepares
  split at prepares
  · rw [eq_decorate_of_withDiscriminators prepares]
    intro definition member
    obtain ⟨old, listed, rfl⟩ := List.mem_map.mp member
    exact Discriminator.readable_decorate (readable old listed)
  · cases prepares
    exact readable

end Document

end QueryTypes
