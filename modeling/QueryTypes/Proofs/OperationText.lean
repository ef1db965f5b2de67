import QueryTypes.Proofs.ExpandedTypes
import QueryTypes.Proofs.Printing
import QueryTypes.Proofs.Unplaced

namespace QueryTypes

open Rule (Reads)

/-- No type, field or value goes on with the tokens. -/
def Token.Fresh (tokens : List Token) : Prop :=
  ∀ token ∈ tokens.head?, token ∉ [Token.mark '!', .mark '(', .mark '@', .mark '{', .mark ':', .mark '=']

variable {room : Prop} {after : List Token}

theorem Token.Fresh.head?_ne (fresh : Token.Fresh after) {token : Token}
    (continuing : token ∈ [Token.mark '!', .mark '(', .mark '@', .mark '{', .mark ':', .mark '=']) :
    after.head? ≠ some token := fun next => fresh token next continuing

theorem Token.fresh_name (name : String) : Token.Fresh (.name name :: after) := by
  rintro _ ⟨⟩
  simp

theorem Token.fresh_mark {c : Char} (other : c ∉ ['!', '(', '@', '{', ':', '=']) :
    Token.Fresh (.mark c :: after) := by
  rintro _ ⟨⟩
  simpa using other

/-- A check for a token that is not there leads to the other rule. -/
theorem Rule.reads_else {α : Type} {token : Token} {yes no : Rule α} {before : List Token} {holds : α → Prop}
    (other : before.head? ≠ some token) (own : no.Reads room before after holds) :
    Reads (do if ← Rule.nextIs token then yes else no) room before after holds := by
  refine (Rule.reads_nextIs token).bind fun answer known => ?_
  rw [known, if_neg (by simpa using other)]
  exact own

theorem Rule.reads_then {α : Type} {token : Token} {yes no : Rule α} {rest : List Token} {holds : α → Prop}
    (own : yes.Reads room (token :: rest) after holds) :
    Reads (do if ← Rule.nextIs token then yes else no) room (token :: rest) after holds := by
  refine (Rule.reads_nextIs token).bind fun answer known => ?_
  rw [known, if_pos (by simp)]
  exact own

namespace TypeRef

theorem reads_nonNullRule {type : TypeRef} (other : after.head? ≠ some (.mark '!')) :
    (nonNullRule type).Reads room after after (· = type) :=
  Rule.reads_else other (.pure rfl)

theorem reads_nonNullRule_bang {type : TypeRef} :
    (nonNullRule type).Reads room (.mark '!' :: after) after (· = nonNull type) :=
  Rule.reads_then ((Rule.reads_mark '!').bind fun _ _ => .pure rfl)

section Layers

variable (bang : List Token) (whole : TypeRef → TypeRef)
  (outside : ∀ type, (nonNullRule type).Reads room (bang ++ after) after (· = whole type))

include outside

theorem reads_named (name : String) (depth : Nat) :
    (rule depth).Reads room ((named name).tokens ++ (bang ++ after)) after (· = whole (named name)) := by
  have plain : Reads (do nonNullRule (named (← Rule.name))) room (.name name :: (bang ++ after)) after
      (· = whole (named name)) := by
    refine (Rule.reads_name name).bind fun _ same => ?_
    rw [same]
    exact outside (named name)
  cases depth with
  | zero => exact plain
  | succ depth => exact Rule.reads_else (by simp [tokens]) plain

theorem reads_list {element : TypeRef} {depth : Nat} (enough : room → element.height + 1 ≤ depth)
    (inside : ∀ depth, (room → element.height ≤ depth) → ∀ after, after.head? ≠ some (.mark '!') →
      (rule depth).Reads room (element.tokens ++ after) after (· = element)) :
    (rule depth).Reads room ((list element).tokens ++ (bang ++ after)) after (· = whole (list element)) := by
  have tokens : (list element).tokens ++ (bang ++ after) =
      .mark '[' :: (element.tokens ++ .mark ']' :: (bang ++ after)) := by
    simp [TypeRef.tokens]
  rw [tokens]
  cases depth with
  | zero =>
    refine Rule.reads_of_not_name (fun holds => ?_) (by simp)
    exact absurd (enough holds) (by simp)
  | succ depth =>
    refine Rule.reads_then ((Rule.reads_mark '[').bind fun _ _ => ?_)
    have below : room → element.height ≤ depth := fun holds => Nat.le_of_succ_le_succ (enough holds)
    refine (inside depth below _ (by simp)).bind fun _ same => ?_
    rw [same]
    exact (Rule.reads_mark ']').bind fun _ _ => outside (list element)

end Layers

theorem reads_rule : (type : TypeRef) → type.hasDoubleNonNull = false → ∀ depth,
    (room → type.height ≤ depth) → ∀ after, after.head? ≠ some (.mark '!') →
      (rule depth).Reads room (type.tokens ++ after) after (· = type)
  | named name, _, depth, _, after, other =>
    reads_named [] id (fun _ => reads_nonNullRule other) name depth
  | list element, single, depth, enough, after, other =>
    reads_list [] id (fun _ => reads_nonNullRule other) enough (reads_rule element single)
  | nonNull (named name), _, depth, _, after, _ => by
    simpa [tokens] using reads_named [.mark '!'] nonNull (fun _ => reads_nonNullRule_bang) name depth
  | nonNull (list element), single, depth, enough, after, _ => by
    simpa [tokens] using
      reads_list [.mark '!'] nonNull (fun _ => reads_nonNullRule_bang) enough (reads_rule element single)
  | nonNull (nonNull _), single, _, _, _, _ => by cases single

end TypeRef

theorem Value.reads_variable (name : String) (depth : Nat) :
    (Value.rule false depth).Reads room (.mark '$' :: .name name :: after) after (· = .var name) := by
  have simple : (Value.simple false).Reads room (.mark '$' :: .name name :: after) after (· = .var name) := by
    refine Rule.reads_then ((Rule.reads_mark '$').bind fun _ _ => ?_)
    exact (Rule.reads_name name).bind fun _ same => .pure (congrArg Value.var same)
  cases depth with
  | zero => exact simple
  | succ depth => exact Rule.reads_else (by simp) (Rule.reads_else (by simp) simple)

theorem Directive.reads_rules (depth : Nat) (other : after.head? ≠ some (.mark '@')) :
    (Directive.rules depth).Reads room after after (· = []) :=
  Rule.reads_repeatWhile_nil (by simpa using other)

namespace Schema

variable {arguments : List InputValue}

def bound (argument : InputValue) : Argument := ⟨argument.name, .var argument.name⟩

def variableFor (argument : InputValue) : VariableDefinition := ⟨.start, argument.name, argument.type, none⟩

/-- The arguments of a root field are read in the room of one more bracket. -/
theorem reads_arguments (depth : Nat) (other : after.head? ≠ some (.mark '(')) :
    (Argument.rules (depth + 1)).Reads room
      (Token.listTokens '(' ')' (arguments.map argumentTokens) ++ after) after (· = arguments.map bound) := by
  cases arguments with
  | nil => exact Rule.reads_else other (.pure rfl)
  | cons first others =>
    have tokens : Token.listTokens '(' ')' ((first :: others).map argumentTokens) ++ after =
        .mark '(' :: ((first :: others).flatMap argumentTokens ++ .mark ')' :: after) := by
      simp [Token.listTokens, List.flatMap]
    rw [tokens]
    refine Rule.reads_then ((Rule.reads_mark '(').bind fun _ _ => ?_)
    refine (Rule.reads_oneOrMore (fun _ => True) (fun argument read => bound argument = read) ?_ ?_ ?_ trivial).bind
      fun read known => (Rule.reads_mark ')').bind fun _ _ => .pure ?_
    · intro argument _
      simp [argumentTokens]
    · intro argument _ following
      simp [argumentTokens]
    · intro argument _ following _
      refine (Rule.reads_name argument.name).bind fun _ named => (Rule.reads_mark ':').bind fun _ _ => ?_
      refine (Value.reads_variable argument.name depth).bind fun _ valued => .pure ?_
      rw [named, valued]
      rfl
    · rwa [eq_comm, ← List.forall₂_eq_eq_eq, List.forall₂_map_left_iff]

/-- The variables of an operation are read back as they were written. -/
theorem reads_variables (readable : ∀ argument ∈ arguments, argument.Readable) {depth : Nat}
    (enough : room → Token.listHeight (arguments.map (·.type.height)) ≤ depth + 1)
    (other : after.head? ≠ some (.mark '(')) :
    (VariableDefinition.rules (depth + 1)).Reads room
      (Token.listTokens '(' ')' (arguments.map variableTokens) ++ after) after
      fun parameters => parameters.map VariableDefinition.unplaced = arguments.map variableFor := by
  cases arguments with
  | nil => exact Rule.reads_else other (.pure rfl)
  | cons first others =>
    have tokens : Token.listTokens '(' ')' ((first :: others).map variableTokens) ++ after =
        .mark '(' :: ((first :: others).flatMap variableTokens ++ .mark ')' :: after) := by
      simp [Token.listTokens, List.flatMap]
    rw [tokens]
    refine Rule.reads_then ((Rule.reads_mark '(').bind fun _ _ => ?_)
    refine (Rule.reads_oneOrMore Token.Fresh (fun argument v => variableFor argument = v.unplaced)
      ?_ ?_ ?_ (Token.fresh_mark (by decide))).bind fun parameters known => (Rule.reads_mark ')').bind fun _ _ => ?_
    · intro argument _
      simp [variableTokens]
    · intro argument _ following
      exact ⟨Token.fresh_mark (by decide), by simp [variableTokens]⟩
    · intro argument member following fresh
      have below : room → argument.type.height ≤ depth := by
        intro holds
        have top := Token.height_le_listHeight (fun a : InputValue => a.type.height) member
        have bound := enough holds
        omega
      refine Rule.reads_position.bind fun _ _ => (Rule.reads_mark '$').bind fun _ _ => ?_
      refine (Rule.reads_name argument.name).bind fun _ named => (Rule.reads_mark ':').bind fun _ _ => ?_
      refine (TypeRef.reads_rule argument.type (readable argument member).type.single depth below _
        (fresh.head?_ne (by simp))).bind fun _ typed => ?_
      refine (Rule.reads_optionally_none (fresh.head?_ne (by simp))).bind fun _ noDefault => ?_
      refine .pure ?_
      rw [named, typed, noDefault]
      rfl
    · refine .pure (Eq.symm ?_)
      rwa [← List.forall₂_eq_eq_eq, List.forall₂_map_left_iff, List.forall₂_map_right_iff]

end Schema

namespace FieldTree

mutual
def Matches : FieldTree → Selection → Prop
  | node name children, .field head _ selections =>
    head.label = none ∧ head.name = name ∧ head.directives = [] ∧ MatchesAll children selections
  | _, _ => False

def MatchesAll : List FieldTree → List Selection → Prop
  | [], [] => True
  | tree :: trees, selection :: selections => tree.Matches selection ∧ MatchesAll trees selections
  | _, _ => False
end

mutual
def selection : FieldTree → Selection
  | node name children => .field ⟨.start, none, name, [], []⟩ (.point .start) (selections children)

def selections : List FieldTree → List Selection
  | [] => []
  | tree :: rest => tree.selection :: selections rest
end

theorem unplacedAll_of_forall₂ {trees : List FieldTree} {items : List Selection}
    (each : List.Forall₂ (fun tree item => item.unplaced = tree.selection) trees items) :
    Selection.unplacedAll items = selections trees := by
  induction each with
  | nil => rfl
  | cons own _ ih => rw [Selection.unplacedAll, selections, own, ih]

theorem matches_of_field {name : String} {children : List FieldTree} {item : Selection} {arguments : List Argument}
    (below : ∀ inner, Selection.unplacedAll inner = selections children → MatchesAll children inner)
    (same : item.unplaced = .field ⟨.start, none, name, arguments, []⟩ (.point .start) (selections children)) :
    (node name children).Matches item := by
  cases item with
  | field head span inner =>
    obtain ⟨ofHead, -, ofInner⟩ := Selection.field.inj same
    have undirected := congrArg FieldHead.directives ofHead
    exact ⟨congrArg FieldHead.label ofHead, congrArg FieldHead.name ofHead, List.map_eq_nil_iff.mp undirected,
      below inner ofInner⟩
  | inline head span inner => cases same
  | spread named => cases same

mutual
theorem matches_of_unplaced : (tree : FieldTree) → ∀ item : Selection, item.unplaced = tree.selection →
    tree.Matches item
  | node _ children, _, same => matches_of_field (matchesAll_of_unplaced children) same

theorem matchesAll_of_unplaced : (trees : List FieldTree) → ∀ items, Selection.unplacedAll items = selections trees →
    MatchesAll trees items
  | [], [], _ => trivial
  | [], _ :: _, same => by cases same
  | _ :: _, [], same => by cases same
  | tree :: trees, item :: items, same =>
    have both := List.cons.inj same
    ⟨matches_of_unplaced tree item both.1, matchesAll_of_unplaced trees items both.2⟩
end

theorem Matches.exists_field {name : String} {children : List FieldTree} {selection : Selection}
    (matched : (node name children).Matches selection) :
    ∃ head span inner, selection = .field head span inner ∧ head.label = none ∧ head.name = name ∧
      head.directives = [] ∧ MatchesAll children inner := by
  cases selection with
  | field head span inner => exact ⟨head, span, inner, rfl, matched⟩
  | inline head span inner => cases matched
  | spread spread => cases matched

theorem exists_of_matchesAll {trees : List FieldTree} {selections : List Selection}
    (matched : MatchesAll trees selections) {selection : Selection} (member : selection ∈ selections) :
    ∃ tree ∈ trees, tree.Matches selection := by
  induction trees generalizing selections with
  | nil =>
    cases selections with
    | nil => cases member
    | cons _ _ => cases matched
  | cons tree trees ih =>
    cases selections with
    | nil => cases matched
    | cons first rest =>
      rcases List.mem_cons.mp member with rfl | member
      · exact ⟨tree, List.mem_cons_self, matched.1⟩
      · obtain ⟨other, inTrees, own⟩ := ih matched.2 member
        exact ⟨other, List.mem_cons_of_mem _ inTrees, own⟩

theorem eq_nil_iff_of_matchesAll {trees : List FieldTree} {selections : List Selection}
    (matched : MatchesAll trees selections) : selections = [] ↔ trees = [] := by
  cases trees with
  | nil =>
    cases selections with
    | nil => simp
    | cons _ _ => cases matched
  | cons tree trees =>
    cases selections with
    | nil => cases matched
    | cons _ _ => simp

variable {trees : List FieldTree}

/-- Neither arguments nor a label stand in front of subfields. -/
theorem head?_subfields_ne (fresh : Token.Fresh after) {token : Token} (other : token ∈ [.mark '(', .mark ':']) :
    (Token.listTokens '{' '}' (tokensEach trees) ++ after).head? ≠ some token := by
  cases trees with
  | nil =>
    apply fresh.head?_ne
    rcases List.mem_cons.mp other with rfl | other
    · simp
    · rw [List.mem_singleton.mp other]
      simp
  | cons _ _ =>
    intro next
    rw [← Option.some.inj next] at other
    simp at other

/-- A field is read if its arguments and its subfields are. -/
theorem reads_fieldRule (arguments : List Token) {given : List Argument} {name : String} {depth : Nat}
    {nested : Rule SelectionSet}
    (inArguments : (Argument.rules depth).Reads room
      (arguments ++ (Token.listTokens '{' '}' (tokensEach trees) ++ after))
      (Token.listTokens '{' '}' (tokensEach trees) ++ after) (· = given))
    (unlabelled : (arguments ++ (Token.listTokens '{' '}' (tokensEach trees) ++ after)).head? ≠
      some (.mark ':'))
    (below : trees ≠ [] → nested.Reads room (Token.listTokens '{' '}' (tokensEach trees) ++ after) after
      fun set => Selection.unplacedAll set.items = selections trees)
    (fresh : Token.Fresh after) :
    (Selection.fieldRule depth nested).Reads room
      (.name name :: (arguments ++ (Token.listTokens '{' '}' (tokensEach trees) ++ after))) after
      fun item => item.unplaced = .field ⟨.start, none, name, given, []⟩ (.point .start) (selections trees) := by
  refine Rule.reads_position.bind fun _ _ => (Rule.reads_name name).bind fun _ named => ?_
  refine (Rule.reads_optionally_none unlabelled).bind fun _ noLabel => inArguments.bind fun _ same => ?_
  rw [named, noLabel, same]
  cases trees with
  | nil =>
    refine (Directive.reads_rules depth (fresh.head?_ne (by simp))).bind fun _ plain => ?_
    refine (Rule.reads_optionally_none (fresh.head?_ne (by simp))).bind fun _ none => .pure ?_
    rw [plain, none]
    rfl
  | cons first others =>
    refine (Directive.reads_rules depth (by simp [Token.listTokens, tokensEach])).bind fun _ plain => ?_
    refine (Rule.reads_optionally_some (by simp [Token.listTokens, tokensEach]) (below (List.cons_ne_nil _ _))).bind ?_
    rintro _ ⟨set, rfl, matched⟩
    rw [plain, ← matched]
    exact .pure rfl

theorem reads_set {depth : Nat} (enough : room → Token.listHeight (heights trees) ≤ depth) (filled : trees ≠ [])
    (each : ∀ tree ∈ trees, ∀ depth, (room → tree.height ≤ depth) → ∀ after, Token.Fresh after →
      (Selection.rule depth (SelectionSet.rule depth)).Reads room (tree.tokens ++ after) after
        fun item => item.unplaced = tree.selection) :
    (SelectionSet.rule depth).Reads room (Token.listTokens '{' '}' (tokensEach trees) ++ after) after
      fun set => Selection.unplacedAll set.items = selections trees := by
  rw [heights_eq] at enough
  have top {tree : FieldTree} (member : tree ∈ trees) (holds : room) : tree.height + 1 ≤ depth :=
    Nat.le_trans (Token.height_le_listHeight height member) (enough holds)
  obtain ⟨first, others, rfl⟩ := List.exists_cons_of_ne_nil filled
  cases depth with
  | zero =>
    intro lexemes _ holds
    exact absurd (top List.mem_cons_self holds) (by simp)
  | succ depth =>
    have tokens : Token.listTokens '{' '}' (tokensEach (first :: others)) ++ after =
        .mark '{' :: ((first :: others).flatMap tokens ++ .mark '}' :: after) := by
      simp [Token.listTokens, tokensEach_eq, List.flatMap]
    rw [tokens]
    refine Rule.reads_position.bind fun _ _ => (Rule.reads_mark '{').bind fun _ _ => ?_
    refine (Rule.reads_oneOrMore Token.Fresh (fun tree item => item.unplaced = tree.selection) ?_ ?_ ?_
      (Token.fresh_mark (by decide))).bind
      fun items selected => Rule.reads_position.bind fun _ _ => (Rule.reads_mark '}').bind fun _ _ =>
        .pure (unplacedAll_of_forall₂ selected)
    · rintro ⟨name, children⟩ _
      simp [FieldTree.tokens]
    · rintro ⟨name, children⟩ _ following
      exact ⟨Token.fresh_name name, by simp [FieldTree.tokens]⟩
    · intro tree member following fresh
      have below : room → tree.height ≤ depth := fun holds => Nat.le_of_succ_le_succ (top member holds)
      exact each tree member depth below following fresh

mutual
/-- The tokens of a tree are read as a selection of its fields. -/
theorem reads_rule : (tree : FieldTree) → ∀ depth, (room → tree.height ≤ depth) → ∀ after,
    Token.Fresh after → (Selection.rule depth (SelectionSet.rule depth)).Reads room (tree.tokens ++ after)
      after fun item => item.unplaced = tree.selection
  | node name children, depth, enough, after, fresh => by
    have arguments : (Argument.rules depth).Reads room (Token.listTokens '{' '}' (tokensEach children) ++ after)
        (Token.listTokens '{' '}' (tokensEach children) ++ after) (· = []) := by
      cases depth with
      | zero => exact .pure rfl
      | succ depth => exact Rule.reads_else (head?_subfields_ne fresh (by simp)) (.pure rfl)
    refine Rule.reads_else (by simp [tokens]) ?_
    exact reads_fieldRule [] arguments (head?_subfields_ne fresh (by simp))
      (fun filled => reads_set enough filled (reads_each children)) fresh

theorem reads_each : (trees : List FieldTree) → ∀ tree ∈ trees, ∀ depth, (room → tree.height ≤ depth) → ∀ after,
    Token.Fresh after → (Selection.rule depth (SelectionSet.rule depth)).Reads room (tree.tokens ++ after)
      after fun item => item.unplaced = tree.selection
  | [] => nofun
  | tree :: rest => List.forall_mem_cons.mpr ⟨reads_rule tree, reads_each rest⟩
end

end FieldTree

namespace Document

variable {text : String} {document : Document}

theorem parse_eq_ok_iff : Document.parse text = .ok document ↔
    Rule.parse (Rule.allOf (Definition.rule Token.nestingLimit)) text = .ok document.definitions := by
  unfold Document.parse
  cases Rule.parse (Rule.allOf (Definition.rule Token.nestingLimit)) text with
  | error place =>
    constructor
    · intro parsed
      cases parsed
    · intro parsed
      cases parsed
  | ok definitions =>
    constructor
    · rintro ⟨⟩
      rfl
    · rintro ⟨⟩
      rfl

/-- The path of the file is of use only where the text cannot be read. -/
theorem read_eq_ok_iff {path : Option String} :
    Document.read path text = .ok document ↔ Document.parse text = .ok document := by
  unfold Document.read
  cases Document.parse text <;> simp [Except.mapError]

end Document

namespace Schema

/-- The operation on a root field, as it was written. -/
structure Performs (kind : OperationKind) (name : String) (field : FieldDefinition) (trees : List FieldTree)
    (operation : Operation) : Prop where
  kind : operation.kind = kind
  name : operation.name? = some name
  parameters : operation.parameters.map (fun v => (v.name, v.type)) = field.arguments.map fun a => (a.name, a.type)
  items : FieldTree.MatchesAll [.node field.name trees] operation.selectionSet.items

def rootSelection (field : FieldDefinition) (trees : List FieldTree) : Selection :=
  .field ⟨.start, none, field.name, field.arguments.map bound, []⟩ (.point .start) (FieldTree.selections trees)

def operationOn (kind : OperationKind) (name : String) (field : FieldDefinition) (trees : List FieldTree) :
    Operation :=
  ⟨.start, some ⟨kind, some name, field.arguments.map variableFor, []⟩, ⟨.point .start, [rootSelection field trees]⟩⟩

variable {field : FieldDefinition} {trees : List FieldTree} {depth : Nat}

theorem performs_of_unplaced {kind : OperationKind} {name : String} {operation : Operation}
    (same : operation.unplaced = operationOn kind name field trees) : Performs kind name field trees operation where
  kind := by rw [← operation.kind_unplaced, same]; rfl
  name := by rw [← operation.name?_unplaced, same]; rfl
  parameters := by
    have unplaced : operation.parameters.map VariableDefinition.unplaced = field.arguments.map variableFor := by
      rw [← operation.parameters_unplaced, same]
      rfl
    have pairs := congrArg (List.map fun v => (v.name, v.type)) unplaced
    rwa [List.map_map, List.map_map] at pairs
  items := by
    have items : Selection.unplacedAll operation.selectionSet.items = [rootSelection field trees] :=
      congrArg (fun operation => operation.selectionSet.items) same
    cases written : operation.selectionSet.items with
    | nil =>
      rw [written] at items
      cases items
    | cons item rest =>
      rw [written] at items
      obtain ⟨own, none⟩ := List.cons.inj items
      exact ⟨FieldTree.matches_of_field (FieldTree.matchesAll_of_unplaced trees) own,
        FieldTree.matchesAll_of_unplaced [] rest none⟩

theorem reads_root (enough : room → rootHeight field trees ≤ depth + 1) (fresh : Token.Fresh after) :
    (Selection.rule (depth + 1) (SelectionSet.rule (depth + 1))).Reads room (rootTokens field trees ++ after)
      after fun item => item.unplaced = rootSelection field trees := by
  have below : room → Token.listHeight (FieldTree.heights trees) ≤ depth + 1 :=
    fun holds => Nat.le_trans (Nat.le_max_right _ _) (enough holds)
  have unlabelled : (Token.listTokens '(' ')' (field.arguments.map argumentTokens) ++
      (Token.listTokens '{' '}' (FieldTree.tokensEach trees) ++ after)).head? ≠ some (.mark ':') := by
    cases field.arguments with
    | nil => exact FieldTree.head?_subfields_ne fresh (by simp)
    | cons _ _ => simp [Token.listTokens]
  have tokens : rootTokens field trees ++ after = .name field.name ::
      (Token.listTokens '(' ')' (field.arguments.map argumentTokens) ++
        (Token.listTokens '{' '}' (FieldTree.tokensEach trees) ++ after)) := by
    simp [rootTokens]
  rw [tokens]
  refine Rule.reads_else (by simp) ?_
  refine FieldTree.reads_fieldRule _ ?_ unlabelled
    (fun filled => FieldTree.reads_set below filled (FieldTree.reads_each trees)) fresh
  exact reads_arguments depth (FieldTree.head?_subfields_ne fresh (by simp))

theorem reads_rootSet (enough : room → rootHeight field trees ≤ depth + 1) :
    (SelectionSet.rule (depth + 2)).Reads room (Token.listTokens '{' '}' [rootTokens field trees] ++ after) after
      fun set => set.unplaced = ⟨.point .start, [rootSelection field trees]⟩ := by
  have tokens : Token.listTokens '{' '}' [rootTokens field trees] ++ after =
      .mark '{' :: (rootTokens field trees ++ .mark '}' :: after) := by
    simp [Token.listTokens]
  rw [tokens]
  refine Rule.reads_position.bind fun _ _ => (Rule.reads_mark '{').bind fun _ _ => ?_
  refine (Rule.reads_oneOrMore_single (reads_root enough (Token.fresh_mark (by decide)))).bind ?_
  rintro _ ⟨selection, rfl, matched⟩
  refine Rule.reads_position.bind fun _ _ => (Rule.reads_mark '}').bind fun _ _ => .pure ?_
  rw [← matched]
  rfl

theorem reads_operationRule {kind : OperationKind} {name : String} (printable : field.Printable)
    (enough : room → operationHeight field trees ≤ depth + 2) :
    (Operation.rule (depth + 2) kind).Reads room (operationTokens kind name field trees ++ after) after
      fun operation => operation.unplaced = operationOn kind name field trees := by
  have inParameters : room → Token.listHeight (field.arguments.map (·.type.height)) ≤ depth + 2 :=
    fun holds => Nat.le_trans (Nat.le_max_left _ _) (enough holds)
  have inRoot : room → rootHeight field trees ≤ depth + 1 :=
    fun holds => Nat.le_of_succ_le_succ (Nat.le_trans (Nat.le_max_right _ _) (enough holds))
  have tokens : operationTokens kind name field trees ++ after = .name kind.keyword :: .name name ::
      (Token.listTokens '(' ')' (field.arguments.map variableTokens) ++
        (Token.listTokens '{' '}' [rootTokens field trees] ++ after)) := by
    simp [operationTokens]
  rw [tokens]
  refine Rule.reads_position.bind fun _ _ => (Rule.reads_keyword _).bind fun _ _ => ?_
  refine Rule.reads_peek?.bind fun _ next => ?_
  rw [next]
  refine (Rule.reads_keyword name).bind fun _ _ => ?_
  refine (reads_variables printable.arguments inParameters (by simp [Token.listTokens])).bind fun _ parameters => ?_
  refine (Directive.reads_rules _ (by simp [Token.listTokens])).bind fun _ plain => ?_
  refine (reads_rootSet inRoot).bind fun _ set => .pure ?_
  simp only [Operation.unplaced, Option.map_some, OperationHead.unplaced, parameters, plain, List.map_nil, set,
    operationOn]

theorem reads_operation {kind : OperationKind} {name : String} (printable : field.Printable)
    (enough : room → operationHeight field trees ≤ depth + 2) :
    (Definition.rule (depth + 2)).Reads room (operationTokens kind name field trees ++ after) after
      fun definition => ∃ operation, definition = .operation operation ∧
        operation.unplaced = operationOn kind name field trees := by
  have own : (Operation.rule (depth + 2) kind).Reads room (operationTokens kind name field trees ++ after)
      after fun operation => operation.unplaced = operationOn kind name field trees :=
    reads_operationRule printable enough
  refine Rule.reads_peek?.bind fun _ next => ?_
  rw [next]
  cases kind <;> exact own.bind fun operation same => .pure ⟨operation, rfl, same⟩

theorem isName_of_mem_expandable {schema : Schema} (named : schema.Named) {type : TypeDefinition}
    (listed : type ∈ schema.types) {entry : String × String} (member : entry ∈ expandable type) :
    isName entry.1 = true := by
  unfold expandable at member
  split at member
  · rename_i fields body
    obtain ⟨field, inFields, rfl⟩ := List.mem_map.mp member
    have own : field ∈ type.inputFields := by rwa [TypeDefinition.inputFields, body]
    exact named.inputFields type listed field own
  · obtain ⟨field, inFields, rfl⟩ := List.mem_map.mp member
    exact named.fields type listed field (List.mem_of_mem_filter inFields)

theorem namedAll_expand {schema : Schema} (named : schema.Named) (path : List String) (name : String) :
    FieldTree.NamedAll (schema.expand path name) := by
  refine schema.expand_induction (fun _ trees => FieldTree.NamedAll trees) (fun _ _ => trivial)
    (fun _ _ _ _ => ⟨⟨by decide, trivial⟩, trivial⟩) ?_ path name
  intro name type below found _ _ ih
  rw [FieldTree.namedAll_iff]
  intro tree member
  obtain ⟨⟨field, base⟩, listed, rfl⟩ := List.mem_map.mp member
  exact ⟨isName_of_mem_expandable named (mem_of_type? found) listed, ih base⟩

/-- The text of an operation is read as that operation or not at all, and it is read if it does not
    open more brackets at once than the parser allows. -/
theorem read_written {schema : Schema} (schemaNamed : schema.Named) {kind : OperationKind} {name : String}
    (isName : isName name = true) {field : FieldDefinition} (printable : field.Printable) (path : Option String)
    {text : String} (written : schema.operationText kind name field = .ok text) :
    (∀ document, Document.read path text = .ok document → ∃ operation, document = ⟨[.operation operation]⟩ ∧
      operation.unplaced = operationOn kind name field (schema.expand [] field.type.baseName)) ∧
    (Token.deepest 0 text.toList ≤ Token.nestingLimit → ∃ document, Document.read path text = .ok document) := by
  have prints := prints_operation isName printable (namedAll_expand schemaNamed [] _) written
  generalize schema.expand [] field.type.baseName = trees at prints ⊢
  have one : (Definition.rule Token.nestingLimit).Reads (operationHeight field trees ≤ Token.nestingLimit)
      (operationTokens kind name field trees ++ []) [] fun definition => ∃ operation,
        definition = .operation operation ∧ operation.unplaced = operationOn kind name field trees :=
    reads_operation printable id
  have all : (Rule.allOf (Definition.rule Token.nestingLimit)).Reads
      (operationHeight field trees ≤ Token.nestingLimit) (operationTokens kind name field trees) []
      fun definitions => ∃ operation, definitions = [.operation operation] ∧
        operation.unplaced = operationOn kind name field trees := by
    rw [List.append_nil] at one
    refine one.bind ?_
    rintro _ ⟨operation, rfl, same⟩
    refine (Rule.reads_repeatWhile_nil (by simp)).bind fun _ none => .pure ⟨operation, ?_, same⟩
    rw [none]
  have lexes : Token.Lexes text.toList (operationTokens kind name field trees) := by
    simpa using prints.spells [] [] nofun .nil
  have depth : operationHeight field trees ≤ Token.deepest 0 text.toList := by
    simpa using prints.rises 0 []
  obtain ⟨sound, complete⟩ := all.of_parse lexes
  constructor
  · intro document read
    obtain ⟨operation, only, same⟩ := sound _ (Document.parse_eq_ok_iff.mp (Document.read_eq_ok_iff.mp read))
    exact ⟨operation, congrArg Document.mk only, same⟩
  · intro enough
    obtain ⟨definitions, parsed⟩ := complete (Nat.le_trans depth enough)
    exact ⟨⟨definitions⟩, Document.read_eq_ok_iff.mpr (Document.parse_eq_ok_iff.mpr parsed)⟩

/-- Every operation on a schema that was read is written, and its text performs it. -/
theorem read_operationText {schema : Schema} (readable : schema.Readable) {kind : OperationKind} {name : String}
    (isName : isName name = true) {field : FieldDefinition} (ofField : field.Readable) (path : Option String) :
    ∃ text, schema.operationText kind name field = .ok text ∧
      (∀ document, Document.read path text = .ok document → ∃ operation,
        document = ⟨[.operation operation]⟩ ∧
          Performs kind name field (schema.expand [] field.type.baseName) operation) ∧
      (Token.deepest 0 text.toList ≤ Token.nestingLimit → ∃ document, Document.read path text = .ok document) := by
  obtain ⟨text, written, _⟩ := schema.operationText_eq kind name
    fun argument member => (ofField.arguments argument member).type.single
  obtain ⟨sound, complete⟩ := read_written readable.named isName ofField.printable path written
  refine ⟨text, written, fun document read => ?_, complete⟩
  obtain ⟨operation, whole, same⟩ := sound document read
  exact ⟨operation, whole, performs_of_unplaced same⟩

end Schema

end QueryTypes
