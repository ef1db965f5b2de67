import QueryTypes.Proofs.SchemaNames
import QueryTypes.Synthesis

namespace QueryTypes

namespace Token

def opensBracket (c : Char) : Bool := c == '(' || c == '[' || c == '{'

def closesBracket (c : Char) : Bool := c == ')' || c == ']' || c == '}'

def isBracket (c : Char) : Bool := opensBracket c || closesBracket c

def bracket? : Token → Option Char
  | .mark c => if isBracket c then some c else none
  | _ => none

def deepest (count : Nat) : List Char → Nat
  | [] => count
  | c :: rest =>
    if opensBracket c then deepest (count + 1) rest
    else if closesBracket c then max count (deepest (count - 1) rest)
    else deepest count rest

theorem le_deepest (count : Nat) (text : List Char) : count ≤ deepest count text := by
  induction text generalizing count with
  | nil => exact Nat.le_refl count
  | cons c rest ih =>
    unfold deepest
    split
    · have further := ih (count + 1)
      omega
    split
    · exact Nat.le_max_left _ _
    · exact ih count

theorem deepest_filter (count : Nat) (text : List Char) :
    deepest count (text.filter isBracket) = deepest count text := by
  induction text generalizing count with
  | nil => rfl
  | cons c rest ih =>
    rw [deepest, List.filter_cons]
    cases opens : opensBracket c with
    | true => simp [isBracket, opens, deepest, ih]
    | false => cases closes : closesBracket c <;> simp [isBracket, opens, closes, deepest, ih]

theorem isBracket_of_isNameChar {c : Char} (inName : isNameChar c = true) : isBracket c = false := by
  have other (d : Char) (outside : isNameChar d = false) : (c == d) = false := by
    apply beq_false_of_ne
    rintro rfl
    simp [inName] at outside
  simp [isBracket, opensBracket, closesBracket, other '(' (by decide), other '[' (by decide), other '{' (by decide),
    other ')' (by decide), other ']' (by decide), other '}' (by decide)]

theorem filter_isBracket_of_plain {text : List Char} (plain : ∀ c ∈ text, isNameChar c = true) :
    text.filter isBracket = [] := by
  rw [List.filter_eq_nil_iff]
  intro c member
  simp [isBracket_of_isNameChar (plain c member)]

theorem deepest_of_plain {text : List Char} (plain : ∀ c ∈ text, isNameChar c = true) (count : Nat)
    (rest : List Char) : deepest count (text ++ rest) = deepest count rest := by
  rw [← deepest_filter, List.filter_append, filter_isBracket_of_plain plain, List.nil_append, deepest_filter]

/-- In front of any text, it is read as these tokens, opens as many brackets at once as `height` says
    and leaves none open. Its brackets are those of the tokens. -/
structure Prints (text : List Char) (tokens : List Token) (height : Nat) : Prop where
  spells : Spells text tokens
  brackets : text.filter isBracket = tokens.filterMap bracket?
  rises : ∀ count rest, count + height ≤ deepest count (text ++ rest)
  returns : ∀ count rest, deepest count rest ≤ deepest count (text ++ rest)

namespace Prints

variable {text other : List Char} {tokens more : List Token} {height further : Nat}

theorem nil : Prints [] [] 0 :=
  ⟨fun _ _ _ read => read, rfl, fun count rest => le_deepest count rest, fun _ _ => Nat.le_refl _⟩

theorem name {name : String} (isName : isName name = true) : Prints name.toList [.name name] 0 := by
  have every : ∀ c ∈ name.toList, isNameChar c = true := by
    unfold QueryTypes.isName at isName
    split at isName
    · cases isName
    · rename_i c word spelled
      obtain ⟨start, every⟩ := Bool.and_eq_true_iff.mp isName
      have first : isNameChar c = true := by
        simp only [isNameStart, isNameChar, Char.isAlphanum, Bool.or_eq_true] at start ⊢
        tauto
      rw [spelled]
      exact List.forall_mem_cons.mpr ⟨first, List.all_eq_true.mp every⟩
  refine ⟨fun rest more ends read => .name isName ends read, filter_isBracket_of_plain every, fun count rest => ?_,
    fun count rest => ?_⟩
  · rw [deepest_of_plain every]
    exact le_deepest count rest
  · exact Nat.le_of_eq (deepest_of_plain every count rest).symm

theorem append (first : Prints text tokens height) (second : Prints other more further)
    (ends : Boundary other) : Prints (text ++ other) (tokens ++ more) (max height further) := by
  refine ⟨fun rest others apart read => ?_, ?_, fun count rest => ?_, fun count rest => ?_⟩
  · have onward := second.spells rest others apart read
    have between : Boundary (other ++ rest) := by
      cases other with
      | nil => exact apart
      | cons c other => exact ends
    rw [List.append_assoc, List.append_assoc]
    exact first.spells _ _ between onward
  · rw [List.filter_append, List.filterMap_append, first.brackets, second.brackets]
  · rw [List.append_assoc]
    have own := first.rises count (other ++ rest)
    have onward := second.rises count rest
    have kept := first.returns count (other ++ rest)
    omega
  · rw [List.append_assoc]
    exact Nat.le_trans (second.returns count rest) (first.returns count (other ++ rest))

theorem cons {c : Char} (front : List Token)
    (own : ∀ rest more, Lexes rest more → Lexes (c :: rest) (front ++ more))
    (noBracket : isBracket c = false) (none : front.filterMap bracket? = []) (onward : Prints text tokens height) :
    Prints (c :: text) (front ++ tokens) height := by
  have same (count : Nat) (rest : List Char) : deepest count (c :: rest) = deepest count rest := by
    rw [← deepest_filter, List.filter_cons_of_neg (by simp [noBracket]), deepest_filter]
  refine ⟨fun rest more apart read => ?_, ?_, fun count rest => ?_, fun count rest => ?_⟩
  · rw [List.append_assoc]
    exact own _ _ (onward.spells rest more apart read)
  · rw [List.filter_cons_of_neg (by simp [noBracket]), List.filterMap_append, none, List.nil_append, onward.brackets]
  · rw [List.cons_append, same]
    exact onward.rises count rest
  · rw [List.cons_append, same]
    exact onward.returns count rest

theorem mark {c : Char} (isMark : isMark c = true) (noBracket : isBracket c = false)
    (onward : Prints text tokens height) : Prints (c :: text) (.mark c :: tokens) height :=
  cons [.mark c] (fun _ _ read => .mark isMark read) noBracket (by simp [bracket?, noBracket]) onward

theorem separator {c : Char} (between : c = ' ' ∨ c = ',') (onward : Prints text tokens height) :
    Prints (c :: text) tokens height := by
  refine cons [] (fun _ _ read => .separator between read) ?_ rfl onward
  rcases between with rfl | rfl <;> decide

theorem enclosed (opening closing : Char) (marks : isMark opening = true ∧ isMark closing = true)
    (opens : opensBracket opening = true) (closes : closesBracket closing = true)
    (inside : Prints text tokens height) :
    Prints (opening :: text ++ [closing]) (.mark opening :: tokens ++ [.mark closing]) (height + 1) := by
  have noOpening : opensBracket closing = false := by
    cases both : opensBracket closing with
    | false => rfl
    | true =>
      simp only [opensBracket, closesBracket, Bool.or_eq_true, beq_iff_eq] at both closes
      rcases closes with (rfl | rfl) | rfl <;> simp at both
  have inner (count : Nat) (rest : List Char) : deepest count (opening :: text ++ [closing] ++ rest) =
      deepest (count + 1) (text ++ closing :: rest) := by
    rw [List.append_assoc, List.cons_append, deepest, opens]
    rfl
  have outer (count : Nat) (rest : List Char) : deepest count rest ≤ deepest (count + 1) (closing :: rest) := by
    rw [deepest, noOpening, closes]
    exact Nat.le_max_right _ _
  refine ⟨fun rest more apart read => ?_, ?_, fun count rest => ?_, fun count rest => ?_⟩
  · have ends : Boundary (closing :: rest) := by
      rintro _ ⟨⟩
      simp only [closesBracket, Bool.or_eq_true, beq_iff_eq] at closes
      rcases closes with (rfl | rfl) | rfl <;> decide
    have onward := inside.spells (closing :: rest) _ ends (.mark marks.2 read)
    simpa using Lexes.mark marks.1 onward
  · simp [isBracket, bracket?, opens, closes, inside.brackets]
  · rw [inner]
    have own := inside.rises (count + 1) (closing :: rest)
    omega
  · rw [inner]
    exact Nat.le_trans (outer count rest) (inside.returns _ _)

end Prints

section Lists

def listText (opening closing : Char) (texts : List (List Char)) : List Char :=
  if texts.isEmpty then [] else opening :: [','].intercalate texts ++ [closing]

def listTokens (opening closing : Char) (items : List (List Token)) : List Token :=
  if items.isEmpty then [] else .mark opening :: items.flatten ++ [.mark closing]

def listHeight (heights : List Nat) : Nat := if heights.isEmpty then 0 else heights.foldr max 0 + 1

variable {ι : Type} {items : List ι} {text : ι → List Char} {written : ι → List Token} {height : ι → Nat}

theorem Prints.intercalate (each : ∀ item ∈ items, Prints (text item) (written item) (height item)) :
    Prints ([','].intercalate (items.map text)) (items.map written).flatten ((items.map height).foldr max 0) := by
  induction items with
  | nil => exact .nil
  | cons item items ih =>
    rw [List.forall_mem_cons] at each
    cases items with
    | nil => simpa using each.1
    | cons second items =>
      have others := Prints.separator (.inr rfl) (ih each.2)
      have ends : Boundary (',' :: [','].intercalate ((second :: items).map text)) := by
        rintro _ ⟨⟩
        decide
      simpa using each.1.append others ends

theorem Prints.list (opening closing : Char) (marks : isMark opening = true ∧ isMark closing = true)
    (opens : opensBracket opening = true) (closes : closesBracket closing = true)
    (each : ∀ item ∈ items, Prints (text item) (written item) (height item)) :
    Prints (listText opening closing (items.map text)) (listTokens opening closing (items.map written))
      (listHeight (items.map height)) := by
  cases items with
  | nil => exact .nil
  | cons item items => exact Prints.enclosed opening closing marks opens closes (Prints.intercalate each)

theorem boundary_listText (opening closing : Char) (opens : opensBracket opening = true)
    (texts : List (List Char)) : Boundary (listText opening closing texts) := by
  intro c first
  cases texts with
  | nil => cases first
  | cons head rest =>
    cases first
    simp only [opensBracket, Bool.or_eq_true, beq_iff_eq] at opens
    rcases opens with (rfl | rfl) | rfl <;> decide

theorem boundary_lists (first second : List (List Char)) :
    Boundary (listText '(' ')' first ++ listText '{' '}' second) := by
  have own := boundary_listText '(' ')' rfl first
  cases text : listText '(' ')' first with
  | nil => exact boundary_listText '{' '}' rfl second
  | cons c rest =>
    rw [text] at own
    exact own

theorem height_le_listHeight (height : ι → Nat) {item : ι} (member : item ∈ items) :
    height item + 1 ≤ listHeight (items.map height) := by
  have le : height item ≤ (items.map height).foldr max 0 := by
    induction items with
    | nil => cases member
    | cons first items ih =>
      rw [List.map_cons, List.foldr_cons]
      rcases List.mem_cons.mp member with rfl | member
      · exact Nat.le_max_left _ _
      · exact Nat.le_trans (ih member) (Nat.le_max_right _ _)
  cases items with
  | nil => cases member
  | cons first items => exact Nat.succ_le_succ le

end Lists

end Token

namespace TypeRef

open Token (Prints)

def tokens : TypeRef → List Token
  | named name => [.name name]
  | list element => .mark '[' :: element.tokens ++ [.mark ']']
  | nonNull inner => inner.tokens ++ [.mark '!']

def height : TypeRef → Nat
  | named _ => 0
  | list element => element.height + 1
  | nonNull inner => inner.height

theorem prints {type : TypeRef} (isName : isName type.baseName = true) :
    Prints type.toText.toList type.tokens type.height := by
  induction type with
  | named name => exact .name isName
  | list element ih =>
    have text : (list element).toText.toList = '[' :: element.toText.toList ++ [']'] := by
      simp [toText]
    rw [text]
    exact .enclosed '[' ']' (by decide) rfl rfl (ih isName)
  | nonNull inner ih =>
    have text : (nonNull inner).toText.toList = inner.toText.toList ++ ['!'] := by
      simp [toText]
    have bang : Prints ['!'] [.mark '!'] 0 := .mark (by decide) (by decide) .nil
    have ends : Token.Boundary ['!'] := by
      rintro _ ⟨⟩
      decide
    rw [text]
    simpa [tokens, height] using (ih isName).append bang ends

/-- A type that is not non-null twice has its written form as its name, and the name inside it as its
    base name. -/
theorem name_eq_ok {type : TypeRef} (single : type.hasDoubleNonNull = false) (base : Bool) :
    type.name base = .ok (if base then type.baseName else type.toText) := by
  induction type with
  | named name => cases base <;> rfl
  | list element ih =>
    rw [name, ih single]
    cases base <;> rfl
  | nonNull inner ih =>
    rw [hasDoubleNonNull, Bool.or_eq_false_iff] at single
    cases inner with
    | nonNull _ => cases single.1
    | named _ =>
      rw [name, ih single.2]
      · cases base <;> rfl
      · simp
    | list _ =>
      rw [name, ih single.2]
      · cases base <;> rfl
      · simp

theorem name_eq_toText {type : TypeRef} (single : type.hasDoubleNonNull = false) :
    type.name false = .ok type.toText := name_eq_ok single false

theorem single_of_name {type : TypeRef} {base : Bool} {text : String} (found : type.name base = .ok text) :
    type.hasDoubleNonNull = false := by
  induction type generalizing text with
  | named name => rfl
  | list element ih =>
    rw [name] at found
    obtain ⟨inner, own, _⟩ := bind_eq_ok.mp found
    exact ih own
  | nonNull inner ih =>
    cases inner with
    | nonNull _ => cases found
    | named _ => rfl
    | list _ =>
      rw [name] at found
      · obtain ⟨inner, own, _⟩ := bind_eq_ok.mp found
        exact ih own
      · simp

end TypeRef

namespace FieldTree

open Token (Prints)

mutual
def Named : FieldTree → Prop
  | node name children => isName name = true ∧ NamedAll children

def NamedAll : List FieldTree → Prop
  | [] => True
  | tree :: rest => tree.Named ∧ NamedAll rest
end

mutual
def tokens : FieldTree → List Token
  | node name children => .name name :: Token.listTokens '{' '}' (tokensEach children)

def tokensEach : List FieldTree → List (List Token)
  | [] => []
  | tree :: rest => tree.tokens :: tokensEach rest
end

mutual
def height : FieldTree → Nat
  | node _ children => Token.listHeight (heights children)

def heights : List FieldTree → List Nat
  | [] => []
  | tree :: rest => tree.height :: heights rest
end

theorem namedAll_iff {trees : List FieldTree} : NamedAll trees ↔ ∀ tree ∈ trees, tree.Named := by
  induction trees with
  | nil => simp [NamedAll]
  | cons tree trees ih => rw [NamedAll, ih, List.forall_mem_cons]

theorem toTexts_eq (trees : List FieldTree) : toTexts trees = trees.map toText := by
  induction trees with
  | nil => rfl
  | cons tree trees ih => rw [toTexts, ih, List.map_cons]

theorem tokensEach_eq (trees : List FieldTree) : tokensEach trees = trees.map tokens := by
  induction trees with
  | nil => rfl
  | cons tree trees ih => rw [tokensEach, ih, List.map_cons]

theorem heights_eq (trees : List FieldTree) : heights trees = trees.map height := by
  induction trees with
  | nil => rfl
  | cons tree trees ih => rw [heights, ih, List.map_cons]

theorem toList_toText (name : String) (children : List FieldTree) :
    (node name children).toText.toList =
      name.toList ++ Token.listText '{' '}' (children.map fun tree => tree.toText.toList) := by
  cases children with
  | nil => simp [toText, Token.listText]
  | cons first rest =>
    simp [toText, toTexts_eq, Token.listText, String.toList_intercalate, Function.comp_def]

/-- The subfields of a field, given how each of them is printed. -/
theorem prints_list {trees : List FieldTree}
    (each : ∀ tree ∈ trees, Prints tree.toText.toList tree.tokens tree.height) :
    Prints (Token.listText '{' '}' (trees.map fun tree => tree.toText.toList))
      (Token.listTokens '{' '}' (tokensEach trees)) (Token.listHeight (heights trees)) := by
  rw [tokensEach_eq, heights_eq]
  exact .list '{' '}' (by decide) rfl rfl each

mutual
theorem prints : (tree : FieldTree) → tree.Named → Prints tree.toText.toList tree.tokens tree.height
  | node name children, ⟨isName, named⟩ => by
    have below := prints_list (printsEach children named)
    rw [toList_toText, tokens, height]
    simpa using (Prints.name isName).append below (Token.boundary_listText '{' '}' rfl _)

theorem printsEach : (trees : List FieldTree) → NamedAll trees →
    ∀ tree ∈ trees, Prints tree.toText.toList tree.tokens tree.height
  | [], _ => nofun
  | tree :: rest, ⟨own, others⟩ =>
    List.forall_mem_cons.mpr ⟨prints tree own, printsEach rest others⟩
end

end FieldTree

namespace Schema

open Token (Prints)

def variableText (argument : InputValue) : String := "$" ++ argument.name ++ ":" ++ argument.type.toText

def variableTokens (argument : InputValue) : List Token :=
  .mark '$' :: .name argument.name :: .mark ':' :: argument.type.tokens

def argumentText (argument : InputValue) : String := argument.name ++ ":$" ++ argument.name

def argumentTokens (argument : InputValue) : List Token :=
  [.name argument.name, .mark ':', .mark '$', .name argument.name]

theorem prints_variable {argument : InputValue} (readable : argument.Readable) :
    Prints (variableText argument).toList (variableTokens argument) argument.type.height := by
  have text : (variableText argument).toList =
      '$' :: (argument.name.toList ++ ':' :: argument.type.toText.toList) := by
    simp [variableText]
  have type := Prints.mark (c := ':') (by decide) (by decide) (TypeRef.prints readable.type.isName)
  have ends : Token.Boundary (':' :: argument.type.toText.toList) := by
    rintro _ ⟨⟩
    decide
  have named := (Prints.name readable.isName).append type ends
  rw [text]
  simpa [variableTokens] using Prints.mark (c := '$') (by decide) (by decide) named

theorem prints_argument {argument : InputValue} (readable : argument.Readable) :
    Prints (argumentText argument).toList (argumentTokens argument) 0 := by
  have text : (argumentText argument).toList = argument.name.toList ++ ':' :: '$' :: argument.name.toList := by
    simp [argumentText]
  have name := Prints.name readable.isName
  have value := Prints.mark (c := ':') (by decide) (by decide)
    (Prints.mark (c := '$') (by decide) (by decide) name)
  have ends : Token.Boundary (':' :: '$' :: argument.name.toList) := by
    rintro _ ⟨⟩
    decide
  rw [text]
  simpa [argumentTokens] using name.append value ends

def rootText (field : FieldDefinition) (trees : List FieldTree) : List Char :=
  field.name.toList ++ (Token.listText '(' ')' (field.arguments.map fun a => (argumentText a).toList) ++
    Token.listText '{' '}' (trees.map fun tree => tree.toText.toList))

def rootTokens (field : FieldDefinition) (trees : List FieldTree) : List Token :=
  .name field.name :: (Token.listTokens '(' ')' (field.arguments.map argumentTokens) ++
    Token.listTokens '{' '}' (FieldTree.tokensEach trees))

def rootHeight (field : FieldDefinition) (trees : List FieldTree) : Nat :=
  max (Token.listHeight (field.arguments.map fun _ => 0)) (Token.listHeight (FieldTree.heights trees))

theorem prints_root {field : FieldDefinition} (printable : field.Printable) {trees : List FieldTree}
    (named : FieldTree.NamedAll trees) :
    Prints (rootText field trees) (rootTokens field trees) (rootHeight field trees) := by
  have arguments := Prints.list '(' ')' (by decide) rfl rfl
    fun argument member => prints_argument (printable.arguments argument member)
  have below := FieldTree.prints_list (FieldTree.printsEach trees named)
  have both := arguments.append below (Token.boundary_listText '{' '}' rfl _)
  simpa [rootText, rootTokens, rootHeight] using
    (Prints.name printable.isName).append both (Token.boundary_lists _ _)

def operationTokens (kind : OperationKind) (name : String) (field : FieldDefinition)
    (trees : List FieldTree) : List Token :=
  .name kind.keyword :: .name name :: (Token.listTokens '(' ')' (field.arguments.map variableTokens) ++
    Token.listTokens '{' '}' [rootTokens field trees])

def operationHeight (field : FieldDefinition) (trees : List FieldTree) : Nat :=
  max (Token.listHeight (field.arguments.map (·.type.height))) (rootHeight field trees + 1)

theorem toList_parenthesized (texts : List String) :
    (if texts.isEmpty then "" else "(" ++ ",".intercalate texts ++ ")").toList =
      Token.listText '(' ')' (texts.map String.toList) := by
  cases texts with
  | nil => rfl
  | cons first rest => simp [Token.listText, String.toList_intercalate]

theorem operationText_eq (schema : Schema) (kind : OperationKind) (name : String) {field : FieldDefinition}
    (single : ∀ argument ∈ field.arguments, argument.type.hasDoubleNonNull = false) :
    ∃ text, schema.operationText kind name field = .ok text ∧
      text.toList = kind.keyword.toList ++ ' ' :: (name.toList ++
        (Token.listText '(' ')' (field.arguments.map fun a => (variableText a).toList) ++
          Token.listText '{' '}' [rootText field (schema.expand [] field.type.baseName)])) := by
  have parameters : (field.arguments.mapM fun argument => do
      return "$" ++ argument.name ++ ":" ++ (← argument.type.name false) : Except Error (List String)) =
        .ok (field.arguments.map variableText) := by
    apply mapM_eq_map
    intro argument member
    rw [TypeRef.name_eq_toText (single argument member)]
    rfl
  refine ⟨_, by rw [operationText, parameters]; rfl, ?_⟩
  have subfields (trees : List FieldTree) :
      (if trees.isEmpty then "" else "\x7b" ++ ",".intercalate (FieldTree.toTexts trees) ++ "\x7d").toList =
        Token.listText '{' '}' (trees.map fun tree => tree.toText.toList) := by
    cases trees with
    | nil => rfl
    | cons first rest =>
      simp [Token.listText, String.toList_intercalate, FieldTree.toTexts_eq, Function.comp_def]
  simp only [String.toList_append, toList_parenthesized, subfields]
  simp [rootText, Token.listText, argumentText, Function.comp_def]

/-- An operation is written exactly if no argument has a type that is non-null twice. -/
theorem exists_operationText_iff (schema : Schema) (kind : OperationKind) (name : String) (field : FieldDefinition) :
    (∃ text, schema.operationText kind name field = .ok text) ↔
      ∀ argument ∈ field.arguments, argument.type.hasDoubleNonNull = false := by
  constructor
  · rintro ⟨text, written⟩ argument member
    obtain ⟨parameters, all, _⟩ := bind_eq_ok.mp written
    obtain ⟨_, _, own⟩ := exists_of_mapM all member
    obtain ⟨_, found, _⟩ := bind_eq_ok.mp own
    exact TypeRef.single_of_name found
  · intro single
    obtain ⟨text, written, _⟩ := schema.operationText_eq kind name single
    exact ⟨text, written⟩

theorem isName_keyword (kind : OperationKind) : isName kind.keyword = true := by
  cases kind <;> decide

theorem prints_operation {schema : Schema} {kind : OperationKind} {name : String} (isName : isName name = true)
    {field : FieldDefinition} (printable : field.Printable)
    (named : FieldTree.NamedAll (schema.expand [] field.type.baseName)) {text : String}
    (written : schema.operationText kind name field = .ok text) :
    Prints text.toList (operationTokens kind name field (schema.expand [] field.type.baseName))
      (operationHeight field (schema.expand [] field.type.baseName)) := by
  obtain ⟨_, same, pieces⟩ := schema.operationText_eq kind name
    fun argument member => (printable.arguments argument member).type.single
  rw [written] at same
  cases same
  generalize schema.expand [] field.type.baseName = trees at *
  have parameters := Prints.list '(' ')' (by decide) rfl rfl
    fun argument member => prints_variable (printable.arguments argument member)
  have set : Prints (Token.listText '{' '}' [rootText field trees])
      (Token.listTokens '{' '}' [rootTokens field trees]) (rootHeight field trees + 1) := by
    simpa [Token.listText, Token.listTokens] using
      Prints.enclosed '{' '}' (by decide) rfl rfl (prints_root printable named)
  have both := parameters.append set (Token.boundary_listText '{' '}' rfl _)
  have titled := (Prints.name isName).append both (Token.boundary_lists _ _)
  have spaced := Prints.separator (.inl rfl) titled
  have whole := (Prints.name (isName_keyword kind)).append spaced (by rintro _ ⟨⟩; decide)
  rw [pieces]
  simpa [operationTokens, operationHeight, Token.listHeight] using whole

end Schema

end QueryTypes
