import QueryTypes.Proofs.Literals
import QueryTypes.Proofs.ReadDocuments

namespace QueryTypes

namespace Token

/-- A text that may stand behind anything, and is read as the tokens also if its lines are joined. -/
structure Attachable (text : List Char) (tokens : List Token) : Prop where
  joinable : Joinable text tokens
  detached : Detached text

section Pieces

variable {text other : List Char} {tokens more : List Token}

theorem Attachable.nil : Attachable [] [] := ⟨.nil, .nil⟩

theorem Attachable.separator {c : Char} (between : c = ' ' ∨ c = ',') (joinable : Joinable text tokens) :
    Attachable (c :: text) tokens := by
  refine ⟨.separator between joinable, ?_⟩
  rcases between with rfl | rfl <;> exact .cons (by decide) (by decide) text

theorem Attachable.mark {c : Char} (isMark : isMark c = true) (joinable : Joinable text tokens) :
    Attachable (c :: text) (.mark c :: tokens) := by
  have marks : "()[]\x7b\x7d!$:=@|&".toList.all (fun c => endsNumber c && c != '\n') = true := by decide
  have plain := List.all_eq_true.mp marks c (by simpa [Token.isMark] using isMark)
  simp only [Bool.and_eq_true, bne_iff_ne] at plain
  exact ⟨.mark isMark joinable, .cons plain.1 plain.2 text⟩

theorem Attachable.newline (attachable : Attachable text tokens) : Attachable ('\n' :: text) tokens :=
  ⟨.newline attachable.joinable, .newline attachable.detached⟩

theorem Joinable.attach (first : Joinable text tokens) (second : Attachable other more) :
    Joinable (text ++ other) (tokens ++ more) :=
  first.append second.detached second.joinable

theorem Attachable.append (first : Attachable text tokens) (second : Attachable other more) :
    Attachable (text ++ other) (tokens ++ more) :=
  ⟨first.joinable.attach second, first.detached.append second.detached⟩

theorem Joinable.enclosed {opening closing : Char} (opens : isMark opening = true) (closes : isMark closing = true)
    (inside : Joinable text tokens) :
    Attachable (opening :: (text ++ [closing])) (.mark opening :: (tokens ++ [.mark closing])) :=
  .mark opens (inside.attach (.mark closes .nil))

theorem joinable_name {name : String} (isName : isName name = true) : Joinable name.toList [.name name] :=
  (isWord_name isName).joinable

section Items

variable {ι : Type} {items : List ι} {text : ι → String} {tokensOf : ι → List Token}

theorem attachable_join (each : ∀ item ∈ items, Attachable (text item).toList (tokensOf item)) :
    Attachable (String.join (items.map text)).toList (items.flatMap tokensOf) := by
  induction items with
  | nil => exact .nil
  | cons item items ih =>
    rw [List.forall_mem_cons] at each
    rw [List.map_cons, String.join_cons, String.toList_append, List.flatMap_cons]
    exact each.1.append (ih each.2)

theorem intercalate_empty (texts : List String) : "".intercalate texts = String.join texts := by
  induction texts with
  | nil => rfl
  | cons text texts ih =>
    cases texts with
    | nil => simp
    | cons second texts =>
      rw [String.intercalate_cons_of_ne_nil (List.cons_ne_nil _ _), ih, String.append_empty, ← String.join_cons]

theorem joinable_intercalate (each : ∀ item ∈ items, Joinable (text item).toList (tokensOf item)) :
    Joinable (", ".intercalate (items.map text)).toList (items.flatMap tokensOf) := by
  induction items with
  | nil => exact .nil
  | cons item items ih =>
    rw [List.forall_mem_cons] at each
    cases items with
    | nil => simpa using each.1
    | cons second items =>
      have onward : Attachable (", ".toList ++ (", ".intercalate ((second :: items).map text)).toList)
          ((second :: items).flatMap tokensOf) :=
        .separator (.inr rfl) (.separator (.inl rfl) (ih each.2))
      have whole := each.1.attach onward
      rw [List.map_cons, String.intercalate_cons_of_ne_nil (by simp), String.toList_append, String.toList_append,
        List.append_assoc, List.flatMap_cons]
      exact whole

end Items

end Pieces

end Token

open Token (Joinable Attachable joinable_name joinable_intercalate attachable_join intercalate_empty Seamless)

namespace Value

mutual
def tokens : Value → List Token
  | .var name => [.mark '$', .name name]
  | .null => [.name "null"]
  | .boolean value => [.name (if value then "true" else "false")]
  | .int value => [Token.ofNumber (toString value).toList]
  | .float value => [Token.ofFloat value]
  | .string text => [.string (rewritten text)]
  | .enum name => [.name name]
  | .list elements => .mark '[' :: (tokensAll elements ++ [.mark ']'])
  | .object entries => .mark '{' :: (entryTokens entries ++ [.mark '}'])

def tokensAll : List Value → List Token
  | [] => []
  | value :: rest => tokens value ++ tokensAll rest

def entryTokens : List (String × Value) → List Token
  | [] => []
  | (key, value) :: rest => .name key :: .mark ':' :: tokens value ++ entryTokens rest
end

mutual
def leaves : Value → List Value
  | .list elements => leavesAll elements
  | .object entries => entryLeaves entries
  | value => [value]

def leavesAll : List Value → List Value
  | [] => []
  | value :: rest => leaves value ++ leavesAll rest

def entryLeaves : List (String × Value) → List Value
  | [] => []
  | (_, value) :: rest => leaves value ++ entryLeaves rest
end

theorem tokensAll_eq (elements : List Value) : tokensAll elements = elements.flatMap tokens := by
  induction elements with
  | nil => rfl
  | cons value rest ih => rw [tokensAll, ih, List.flatMap_cons]

theorem entryTokens_eq (entries : List (String × Value)) :
    entryTokens entries = entries.flatMap fun entry => .name entry.1 :: .mark ':' :: entry.2.tokens := by
  induction entries with
  | nil => rfl
  | cons entry rest ih => rw [entryTokens, ih, List.flatMap_cons]

theorem leavesAll_eq (elements : List Value) : leavesAll elements = elements.flatMap leaves := by
  induction elements with
  | nil => rfl
  | cons value rest ih => rw [leavesAll, ih, List.flatMap_cons]

theorem entryLeaves_eq (entries : List (String × Value)) :
    entryLeaves entries = entries.flatMap fun entry => entry.2.leaves := by
  induction entries with
  | nil => rfl
  | cons entry rest ih => rw [entryLeaves, ih, List.flatMap_cons]

theorem toTexts_eq (indent : Nat) (elements : List Value) : toTexts indent elements = elements.map (toText indent) := by
  induction elements with
  | nil => rfl
  | cons value rest ih => rw [toTexts, ih, List.map_cons]

theorem entryTexts_eq (indent : Nat) (entries : List (String × Value)) :
    entryTexts indent entries = entries.map fun entry => entry.1 ++ ": " ++ entry.2.toText indent := by
  induction entries with
  | nil => rfl
  | cons entry rest ih => rw [entryTexts, ih, List.map_cons]

/-- A string over several lines is blank. -/
def IsTogether : Value → Prop
  | .string text => StaysTogether text
  | _ => True

theorem joinable_keyed {key : String} (isKey : isName key = true) {value : Value} {indent : Nat}
    (joinable : Joinable (value.toText indent).toList value.tokens) :
    Joinable (key ++ ": " ++ value.toText indent).toList (.name key :: .mark ':' :: value.tokens) := by
  have onward : Attachable (':' :: ' ' :: (value.toText indent).toList) (.mark ':' :: value.tokens) :=
    .mark (by decide) (.separator (.inl rfl) joinable)
  simpa using (joinable_name isKey).attach onward

theorem joinable_toText {constant : Bool} {depth : Nat} {value : Value} (readable : value.Readable constant depth) (indent : Nat)
    (together : ∀ leaf ∈ value.leaves, leaf.IsTogether) :
    Joinable (value.toText indent).toList value.tokens := by
  induction readable with
  | @var _ name isName _ =>
    have dollar : Joinable ('$' :: name.toList) [.mark '$', .name name] := .mark (by decide) (joinable_name isName)
    simpa [toText, tokens] using dollar
  | null => exact joinable_name (show isName "null" = true by decide)
  | @boolean _ value =>
    cases value with
    | false => exact joinable_name (show isName "false" = true by decide)
    | true => exact joinable_name (show isName "true" = true by decide)
  | int => exact (Token.isNumeral_int _).isWord.joinable
  | float => exact (Token.isWord_float _).joinable
  | string => exact joinable_stringText indent (together _ List.mem_cons_self)
  | enum isName => exact joinable_name isName
  | @list _ elements each ih =>
    rw [leaves, leavesAll_eq] at together
    have inside := joinable_intercalate fun element listed =>
      ih element listed fun leaf inLeaves => together leaf (List.mem_flatMap.mpr ⟨element, listed, inLeaves⟩)
    rw [toText, toTexts_eq, tokens, tokensAll_eq, String.toList_append, String.toList_append]
    exact (inside.enclosed (show Token.isMark '[' = true by decide) (show Token.isMark ']' = true by decide)).joinable
  | @object _ entries keys each ih =>
    rw [leaves, entryLeaves_eq] at together
    have inside := joinable_intercalate fun entry listed =>
      joinable_keyed (keys entry listed) (ih entry listed fun leaf inLeaves =>
        together leaf (List.mem_flatMap.mpr ⟨entry, listed, inLeaves⟩))
    rw [toText, entryTexts_eq, tokens, entryTokens_eq, String.toList_append, String.toList_append]
    exact (inside.enclosed (show Token.isMark '{' = true by decide) (show Token.isMark '}' = true by decide)).joinable

end Value

section Directives

variable {depth : Nat}

def Argument.tokens (argument : Argument) : List Token := .name argument.name :: .mark ':' :: argument.value.tokens

def argumentsTokens (arguments : List Argument) : List Token :=
  if arguments.isEmpty then [] else .mark '(' :: (arguments.flatMap Argument.tokens ++ [.mark ')'])

def argumentLeaves (arguments : List Argument) : List Value := arguments.flatMap fun argument => argument.value.leaves

def Directive.tokens (directive : Directive) : List Token :=
  .mark '@' :: .name directive.name :: argumentsTokens directive.arguments

def directiveLeaves (directives : List Directive) : List Value :=
  directives.flatMap fun directive => argumentLeaves directive.arguments

theorem Argument.Readable.joinable {argument : Argument} (readable : argument.Readable depth) (indent : Nat)
    (together : ∀ leaf ∈ argument.value.leaves, leaf.IsTogether) :
    Joinable (argument.name ++ ": " ++ argument.value.toText indent).toList argument.tokens := by
  cases depth with
  | zero => exact readable.elim
  | succ depth => exact Value.joinable_keyed readable.1 (Value.joinable_toText readable.2 indent together)

theorem attachable_arguments {arguments : List Argument} (each : ∀ argument ∈ arguments, argument.Readable depth)
    (indent : Nat) (together : ∀ leaf ∈ argumentLeaves arguments, leaf.IsTogether) :
    Attachable (argumentsText indent arguments).toList (argumentsTokens arguments) := by
  cases arguments with
  | nil => exact .nil
  | cons first rest =>
    have inside := joinable_intercalate fun argument listed =>
      (each argument listed).joinable indent fun leaf inLeaves =>
        together leaf (List.mem_flatMap.mpr ⟨argument, listed, inLeaves⟩)
    rw [argumentsText, argumentsTokens, if_neg (by simp), if_neg (by simp), String.toList_append, String.toList_append]
    exact inside.enclosed (show Token.isMark '(' = true by decide) (show Token.isMark ')' = true by decide)

theorem attachable_directives {directives : List Directive} (each : ∀ directive ∈ directives, directive.Readable depth)
    (indent : Nat) (together : ∀ leaf ∈ directiveLeaves directives, leaf.IsTogether) :
    Attachable (directivesText indent directives).toList (directives.flatMap Directive.tokens) := by
  unfold directivesText
  apply attachable_join
  intro directive listed
  have readable := each directive listed
  have arguments := attachable_arguments readable.arguments indent fun leaf inLeaves =>
    together leaf (List.mem_flatMap.mpr ⟨directive, listed, inLeaves⟩)
  have named : Attachable (" @".toList ++ (directive.name.toList ++ (argumentsText indent directive.arguments).toList))
      directive.tokens :=
    .separator (.inl rfl) (.mark (by decide) ((joinable_name readable.isName).attach arguments))
  rw [String.toList_append, String.toList_append, List.append_assoc]
  exact named

end Directives

section Selections

variable {depth indent : Nat}

def FieldHead.tokens (head : FieldHead) : List Token :=
  let label := match head.label with
    | some label => [.name label, .mark ':']
    | none => []
  label ++ .name head.name :: (argumentsTokens head.arguments ++ head.directives.flatMap Directive.tokens)

def FieldHead.leaves (head : FieldHead) : List Value :=
  argumentLeaves head.arguments ++ directiveLeaves head.directives

def InlineHead.tokens (head : InlineHead) : List Token :=
  let condition := match head.condition with
    | some name => [.name "on", .name name]
    | none => []
  .ellipsis :: (condition ++ head.directives.flatMap Directive.tokens)

def bracedTokens (inside : List Token) : List Token := .mark '{' :: (inside ++ [.mark '}'])

namespace Selection

mutual
def tokens : Selection → List Token
  | .field head _ selections => head.tokens ++ if selections.isEmpty then [] else bracedTokens (tokensAll selections)
  | .inline head _ selections => head.tokens ++ bracedTokens (tokensAll selections)
  | .spread s => .ellipsis :: .name s.name :: s.directives.flatMap Directive.tokens

def tokensAll : List Selection → List Token
  | [] => []
  | selection :: rest => tokens selection ++ tokensAll rest
end

mutual
def leaves : Selection → List Value
  | .field head _ selections => head.leaves ++ leavesAll selections
  | .inline head _ selections => directiveLeaves head.directives ++ leavesAll selections
  | .spread s => directiveLeaves s.directives

def leavesAll : List Selection → List Value
  | [] => []
  | selection :: rest => leaves selection ++ leavesAll rest
end

theorem tokensAll_eq (selections : List Selection) : tokensAll selections = selections.flatMap tokens := by
  induction selections with
  | nil => rfl
  | cons selection rest ih => rw [tokensAll, ih, List.flatMap_cons]

theorem leavesAll_eq (selections : List Selection) : leavesAll selections = selections.flatMap leaves := by
  induction selections with
  | nil => rfl
  | cons selection rest ih => rw [leavesAll, ih, List.flatMap_cons]

theorem toTexts_eq (indent : Nat) (selections : List Selection) :
    toTexts indent selections = String.join (selections.map (toText indent)) := by
  induction selections with
  | nil => rfl
  | cons selection rest ih => rw [toTexts, ih, List.map_cons, String.join_cons]

theorem joinable_fieldText {head : FieldHead} (readable : head.Readable depth) (indent : Nat)
    (together : ∀ leaf ∈ head.leaves, leaf.IsTogether) :
    Joinable (fieldText indent head).toList head.tokens := by
  rw [FieldHead.leaves, List.forall_mem_append] at together
  have arguments := attachable_arguments readable.arguments indent together.1
  have directives := attachable_directives readable.directives indent together.2
  have named := (joinable_name readable.isName).attach (arguments.append directives)
  unfold fieldText FieldHead.tokens
  cases labelled : head.label with
  | none =>
    simp only [String.toList_append, List.append_assoc]
    exact named
  | some label =>
    have onward : Attachable (": ".toList ++ _) (.mark ':' :: _) := .mark (by decide) (.separator (.inl rfl) named)
    simp only [String.toList_append, List.append_assoc]
    exact (joinable_name (readable.label label labelled)).attach onward

theorem joinable_inlineText {head : InlineHead} (readable : head.Readable depth) (indent : Nat)
    (together : ∀ leaf ∈ directiveLeaves head.directives, leaf.IsTogether) :
    Joinable (inlineText indent head).toList head.tokens := by
  have directives := attachable_directives readable.directives indent together
  unfold inlineText InlineHead.tokens
  cases conditioned : head.condition with
  | none =>
    simp only [String.toList_append, List.append_assoc]
    exact .ellipsis directives.joinable
  | some name =>
    have named := (joinable_name (readable.condition name conditioned)).attach directives
    have onward : Attachable (' ' :: (name.toList ++ (directivesText indent head.directives).toList)) _ :=
      .separator (.inl rfl) named
    have isOn := (joinable_name (show isName "on" = true by decide)).attach onward
    simp only [String.toList_append, List.append_assoc]
    exact .ellipsis (.separator (.inl rfl) isOn)

end Selection

theorem attachable_spaces (positive : 0 < indent) {text : List Char} {tokens : List Token}
    (joinable : Joinable text tokens) : Attachable ((spaces indent).toList ++ text) tokens := by
  have blanks (count : Nat) : Joinable (List.replicate count ' ' ++ text) tokens := by
    induction count with
    | zero => exact joinable
    | succ count ih => exact .separator (.inl rfl) ih
  obtain ⟨count, rfl⟩ := Nat.exists_eq_add_one.mpr positive
  rw [spaces, String.toList_ofList, List.replicate_succ]
  exact .separator (.inl rfl) (blanks count)

theorem attachable_feed : Attachable ['\n'] [] := .newline .nil

theorem attachable_braced (positive : 0 < indent) {head inside : String} {tokens more : List Token}
    (own : Joinable head.toList tokens) (below : Attachable inside.toList more) :
    Attachable (spaces indent ++ head ++ " \x7b\n" ++ inside ++ spaces indent ++ "\x7d\n").toList
      (tokens ++ bracedTokens more) := by
  have closing : Attachable ((spaces indent).toList ++ "\x7d\n".toList) [.mark '}'] :=
    attachable_spaces positive (.mark (by decide) attachable_feed.joinable)
  have opening : Attachable (" \x7b\n".toList ++ (inside.toList ++ ((spaces indent).toList ++ "\x7d\n".toList)))
      (bracedTokens more) :=
    .separator (.inl rfl) (.mark (by decide) (below.append closing).newline.joinable)
  simp only [String.toList_append, List.append_assoc]
  exact attachable_spaces positive (own.attach opening)

namespace Selection

theorem toText_field (indent : Nat) (head : FieldHead) (span : Span) {selections : List Selection}
    (filled : selections ≠ []) :
    toText indent (.field head span selections) = spaces indent ++ fieldText indent head ++ " \x7b\n" ++
      toTexts (indent + 2) selections ++ spaces indent ++ "\x7d\n" := by
  cases selections with
  | nil => exact absurd rfl filled
  | cons first rest => simp only [toText, toTexts, String.append_assoc]

theorem attachable_toTexts {selections : List Selection}
    (each : ∀ selection ∈ selections, (∀ leaf ∈ selection.leaves, leaf.IsTogether) →
      Attachable (selection.toText indent).toList selection.tokens)
    (together : ∀ leaf ∈ leavesAll selections, leaf.IsTogether) :
    Attachable (toTexts indent selections).toList (tokensAll selections) := by
  rw [leavesAll_eq] at together
  rw [toTexts_eq, tokensAll_eq]
  apply Token.attachable_join
  intro selection listed
  exact each selection listed fun leaf inLeaves =>
    together leaf (List.mem_flatMap.mpr ⟨selection, listed, inLeaves⟩)

theorem attachable_toText {selection : Selection} (readable : selection.Readable depth) (positive : 0 < indent)
    (together : ∀ leaf ∈ selection.leaves, leaf.IsTogether) :
    Attachable (selection.toText indent).toList selection.tokens := by
  induction readable generalizing indent with
  | @leaf _ head span own =>
    rw [leaves, leavesAll, List.append_nil] at together
    rw [toText, tokens, if_pos List.isEmpty_nil]
    simp only [String.toList_append, List.append_assoc]
    exact attachable_spaces positive ((joinable_fieldText own indent together).attach attachable_feed)
  | @field _ head span selections own filled each ih =>
    rw [leaves, List.forall_mem_append] at together
    have below := attachable_toTexts (fun selection listed => ih selection listed (Nat.succ_pos (indent + 1)))
      together.2
    rw [toText_field indent head span filled, tokens, if_neg (by simpa using filled)]
    exact attachable_braced positive (joinable_fieldText own indent together.1) below
  | @inline _ head span selections own filled each ih =>
    rw [leaves, List.forall_mem_append] at together
    have below := attachable_toTexts (fun selection listed => ih selection listed (Nat.succ_pos (indent + 1)))
      together.2
    rw [toText, tokens]
    exact attachable_braced positive (joinable_inlineText own indent together.1) below
  | @spread _ spread own =>
    have directives := attachable_directives own.directives indent together
    have named := (joinable_name own.isName).attach (directives.append attachable_feed)
    rw [toText, tokens]
    simp only [String.toList_append, List.append_assoc]
    rw [List.append_nil] at named
    exact attachable_spaces positive (.ellipsis named)

end Selection

end Selections

section Definitions

variable {depth : Nat}

def VariableDefinition.tokens (definition : VariableDefinition) : List Token :=
  let initial := match definition.initial with
    | some value => .mark '=' :: value.tokens
    | none => []
  .mark '$' :: .name definition.name :: .mark ':' :: (definition.type.tokens ++ initial)

def VariableDefinition.leaves (definition : VariableDefinition) : List Value :=
  match definition.initial with
  | some value => value.leaves
  | none => []

def OperationHead.variablesTokens (head : OperationHead) : List Token :=
  if head.parameters.isEmpty || (head.kind = .subscription && head.name.isNone) then []
  else .mark '(' :: (head.parameters.flatMap VariableDefinition.tokens ++ [.mark ')'])

def OperationHead.tokens (head : OperationHead) : List Token :=
  let name := match head.name with
    | some name => [.name name]
    | none => []
  .name head.kind.keyword :: (name ++ (head.variablesTokens ++ head.directives.flatMap Directive.tokens))

def OperationHead.leaves (head : OperationHead) : List Value :=
  head.parameters.flatMap VariableDefinition.leaves ++ directiveLeaves head.directives

namespace Definition

def headTokens : Definition → List Token
  | .operation o =>
    match o.head with
    | some head => head.tokens
    | none => []
  | .fragment f =>
    .name "fragment" :: .name f.name :: .name "on" :: .name f.condition :: f.directives.flatMap Directive.tokens

def tokens (definition : Definition) : List Token :=
  definition.headTokens ++ bracedTokens (Selection.tokensAll definition.selections)

def headLeaves : Definition → List Value
  | .operation o =>
    match o.head with
    | some head => head.leaves
    | none => []
  | .fragment f => directiveLeaves f.directives

def leaves (definition : Definition) : List Value :=
  definition.headLeaves ++ Selection.leavesAll definition.selections

end Definition

theorem TypeRef.joinable_toText {type : TypeRef} (isName : isName type.baseName = true) :
    Joinable type.toText.toList type.tokens := by
  induction type with
  | named name => exact joinable_name isName
  | list element ih =>
    rw [toText, tokens, String.toList_append, String.toList_append]
    exact ((ih isName).enclosed (show Token.isMark '[' = true by decide) (show Token.isMark ']' = true by decide)).joinable
  | nonNull inner ih =>
    rw [toText, tokens, String.toList_append]
    exact (ih isName).attach (.mark (by decide) .nil)

theorem VariableDefinition.Readable.attachable {definition : VariableDefinition} (readable : definition.Readable depth)
    (together : ∀ leaf ∈ definition.leaves, leaf.IsTogether) :
    Attachable definition.toText.toList definition.tokens := by
  cases depth with
  | zero => exact readable.elim
  | succ depth =>
    obtain ⟨isName, type, initial⟩ := readable
    have typed := TypeRef.joinable_toText type.1.isName
    have named {text : List Char} {tokens : List Token} (onward : Joinable text tokens) :
        Attachable ("$".toList ++ (definition.name.toList ++ (": ".toList ++ text)))
          (.mark '$' :: .name definition.name :: .mark ':' :: tokens) :=
      .mark (by decide) ((joinable_name isName).attach (.mark (by decide) (.separator (.inl rfl) onward)))
    unfold VariableDefinition.toText VariableDefinition.tokens
    unfold VariableDefinition.leaves at together
    cases written : definition.initial with
    | none =>
      simp only [String.toList_append, List.append_assoc]
      exact named (typed.attach .nil)
    | some value =>
      rw [written] at together
      have assigned : Attachable (" = ".toList ++ (value.toText 0).toList) (.mark '=' :: value.tokens) :=
        .separator (.inl rfl) (.mark (by decide) (.separator (.inl rfl)
          (Value.joinable_toText (initial value written) 0 together)))
      simp only [String.toList_append, List.append_assoc]
      exact named (typed.attach assigned)

namespace OperationHead

theorem attachable_variables {head : OperationHead} (readable : head.Readable depth)
    (together : ∀ leaf ∈ head.parameters.flatMap VariableDefinition.leaves, leaf.IsTogether) :
    Attachable head.variablesText.toList head.variablesTokens := by
  have each (definition : VariableDefinition) (listed : definition ∈ head.parameters) :
      Attachable definition.toText.toList definition.tokens :=
    (readable.parameters definition listed).attachable fun leaf inLeaves =>
      together leaf (List.mem_flatMap.mpr ⟨definition, listed, inLeaves⟩)
  unfold variablesText variablesTokens
  dsimp only
  split
  · exact .nil
  · have inside : Joinable ((if head.kind = .subscription then "" else ", ").intercalate
        (head.parameters.map VariableDefinition.toText)).toList (head.parameters.flatMap VariableDefinition.tokens) := by
      split
      · rw [intercalate_empty]
        exact (attachable_join each).joinable
      · exact joinable_intercalate fun definition listed => (each definition listed).joinable
    rw [String.toList_append, String.toList_append]
    exact inside.enclosed (show Token.isMark '(' = true by decide) (show Token.isMark ')' = true by decide)

theorem joinable_toText {head : OperationHead} (readable : head.Readable depth)
    (together : ∀ leaf ∈ head.leaves, leaf.IsTogether) : Joinable head.toText.toList head.tokens := by
  rw [leaves, List.forall_mem_append] at together
  have directives := attachable_directives readable.directives 0 together.2
  have onward := (attachable_variables readable together.1).append directives
  have keyword := joinable_name (Schema.isName_keyword head.kind)
  unfold OperationHead.toText OperationHead.tokens
  cases named : head.name with
  | none =>
    simp only [String.toList_append, List.append_assoc]
    exact keyword.attach onward
  | some name =>
    have spaced : Attachable (' ' :: (name.toList ++ _)) (.name name :: _) :=
      .separator (.inl rfl) ((joinable_name (readable.isName name named)).attach onward)
    simp only [String.toList_append, List.append_assoc]
    exact keyword.attach spaced

end OperationHead

namespace Definition

def headText : Definition → String
  | .operation o =>
    match o.head with
    | some head => head.toText ++ " "
    | none => ""
  | .fragment f => "fragment " ++ f.name ++ " on " ++ f.condition ++ directivesText 0 f.directives ++ " "

theorem rawText_eq (definition : Definition) :
    definition.rawText = definition.headText ++ ("\x7b\n" ++ Selection.toTexts 2 definition.selections ++ "\x7d\n") := by
  cases definition with
  | operation o =>
    unfold rawText headText
    cases headed : o.head with
    | none => simp only [headed, String.empty_append, SelectionSet.toText, selections]
    | some head => simp only [headed, SelectionSet.toText, selections]
  | fragment f => rfl

theorem toList_toText (definition : Definition) :
    definition.toText.toList =
      definition.headText.toList ++ ('{' :: '\n' :: (Selection.toTexts 2 definition.selections).toList) ++ ['}'] := by
  have brace : Text.isBlank '}' = false := by decide
  have feed : Text.isBlank '\n' = true := by decide
  rw [toText, rawText_eq, trimEnd, String.toList_ofList, Text.trimEnd]
  simp [brace, feed]

theorem joinable_headText {definition : Definition} (readable : definition.Readable depth)
    (together : ∀ leaf ∈ definition.headLeaves, leaf.IsTogether) :
    Joinable definition.headText.toList definition.headTokens := by
  have space : Attachable " ".toList [] := .separator (.inl rfl) .nil
  cases definition with
  | operation o =>
    unfold headText headTokens
    unfold headLeaves at together
    cases headed : o.head with
    | none =>
      simp only [headed]
      exact .nil
    | some head =>
      simp only [headed] at together ⊢
      have own := (OperationHead.joinable_toText (readable.head head headed) together).attach space
      rwa [← String.toList_append, List.append_nil] at own
  | fragment f =>
    have directives := (attachable_directives readable.directives 0 together).append space
    have conditioned := (joinable_name readable.condition).attach directives
    have isOn := (joinable_name (show isName "on" = true by decide)).attach (.separator (.inl rfl) conditioned)
    have named := (joinable_name readable.isName).attach (.separator (.inl rfl) isOn)
    have whole := (joinable_name (show isName "fragment" = true by decide)).attach (.separator (.inl rfl) named)
    have keyword : "fragment " = "fragment" ++ " " := by decide
    have word : " on " = " " ++ ("on" ++ " ") := by decide
    rw [List.append_nil] at whole
    unfold headText headTokens
    dsimp only
    rw [keyword, word]
    simp only [String.toList_append, List.append_assoc]
    exact whole

theorem seamless_append {definition : Definition} (readable : definition.Readable depth)
    (together : ∀ leaf ∈ definition.leaves, leaf.IsTogether) {rest : List Char} {more : List Token}
    (onward : Seamless rest more) : Seamless (definition.toText.toList ++ rest) (definition.tokens ++ more) := by
  rw [leaves, List.forall_mem_append] at together
  obtain ⟨below, each⟩ := readable.selections
  have inside : Attachable ('{' :: '\n' :: (Selection.toTexts 2 definition.selections).toList)
      (.mark '{' :: Selection.tokensAll definition.selections) :=
    .mark (by decide) (Selection.attachable_toTexts (fun selection listed =>
      Selection.attachable_toText (each selection listed) (by decide)) together.2).newline.joinable
  have closed : Seamless ('}' :: rest) (.mark '}' :: more) := .mark (by decide) onward
  have whole := (joinable_headText readable together.1).attach inside _ _ (.cons (by decide) (by decide) rest) closed
  rw [toList_toText, List.append_assoc]
  simpa [tokens, bracedTokens] using whole

theorem seamless_sources {definitions : List Definition} (readable : ∀ definition ∈ definitions, definition.Readable depth)
    (together : ∀ definition ∈ definitions, ∀ leaf ∈ definition.leaves, leaf.IsTogether) :
    Seamless ("\n".intercalate (definitions.map toText)).toList (definitions.flatMap tokens) := by
  induction definitions with
  | nil => exact .nil
  | cons definition definitions ih =>
    rw [List.forall_mem_cons] at readable together
    have rest := ih readable.2 together.2
    cases definitions with
    | nil => simpa using seamless_append readable.1 together.1 .nil
    | cons second definitions =>
      rw [List.map_cons, String.intercalate_cons_of_ne_nil (by simp), String.toList_append, String.toList_append,
        List.append_assoc, List.flatMap_cons]
      exact seamless_append readable.1 together.1 rest.newline

end Definition

end Definitions

end QueryTypes
