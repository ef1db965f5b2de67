import QueryTypes.Proofs.ReadValues
import QueryTypes.Proofs.SchemaTypes

namespace QueryTypes

structure TypeRef.Readable (type : TypeRef) : Prop where
  isName : isName type.baseName = true
  single : type.hasDoubleNonNull = false

structure InputValue.Readable (value : InputValue) : Prop where
  isName : isName value.name = true
  type : value.type.Readable

structure FieldDefinition.Readable (field : FieldDefinition) : Prop where
  isName : isName field.name = true
  arguments : ∀ argument ∈ field.arguments, argument.Readable
  type : field.type.Readable

structure FieldDefinition.Printable (field : FieldDefinition) : Prop where
  isName : isName field.name = true
  arguments : ∀ argument ∈ field.arguments, argument.Readable

theorem FieldDefinition.Readable.printable {field : FieldDefinition} (readable : field.Readable) : field.Printable :=
  ⟨readable.isName, readable.arguments⟩

def TypeBody.Readable : TypeBody → Prop
  | .object _ fields | .interface fields => ∀ field ∈ fields, field.Readable
  | .input fields => ∀ field ∈ fields, field.Readable
  | .union members => ∀ member ∈ members, isName member = true
  | _ => True

structure TypeDefinition.Readable (type : TypeDefinition) : Prop where
  isName : isName type.name = true
  body : type.body.Readable

def SchemaItem.Readable : SchemaItem → Prop
  | .type definition => definition.Readable
  | .extension addition => addition.body.Readable
  | _ => True

def Schema.Readable (schema : Schema) : Prop := ∀ type ∈ schema.types, type.Readable

section Fields

variable {schema : Schema} (readable : schema.Readable) {type : TypeDefinition} (listed : type ∈ schema.types)

include readable listed

theorem Schema.Readable.field {field : FieldDefinition} (member : field ∈ type.fields) : field.Readable := by
  have own := (readable type listed).body
  unfold TypeDefinition.fields at member
  split at member
  · rename_i body
    rw [body] at own
    exact own field member
  · rename_i body
    rw [body] at own
    exact own field member
  · cases member

theorem Schema.Readable.inputField {field : InputValue} (member : field ∈ type.inputFields) :
    field.Readable := by
  have own := (readable type listed).body
  unfold TypeDefinition.inputFields at member
  split at member
  · rename_i body
    rw [body] at own
    exact own field member
  · cases member

end Fields

/-- The names that operations on the schema are written with are names of the language. -/
structure Schema.Named (schema : Schema) : Prop where
  fields : ∀ type ∈ schema.types, ∀ field ∈ type.fields, isName field.name = true
  arguments : ∀ type ∈ schema.types, ∀ field ∈ type.fields, ∀ argument ∈ field.arguments,
    isName argument.name = true ∧ isName argument.type.baseName = true
  inputFields : ∀ type ∈ schema.types, ∀ field ∈ type.inputFields, isName field.name = true

theorem Schema.Readable.named {schema : Schema} (readable : schema.Readable) : schema.Named where
  fields := fun _ listed _ member => (readable.field listed member).isName
  arguments := fun _ listed _ member argument ofField =>
    have own := (readable.field listed member).arguments argument ofField
    ⟨own.isName, own.type.isName⟩
  inputFields := fun _ listed _ member => (readable.inputField listed member).isName

open Rule (Ensures)

section Rules

theorem TypeRef.ensures_nonNullRule {type : TypeRef} (readable : type.Readable)
    (nullable : type.isNonNull = false) : (nonNullRule type).Ensures Readable := by
  refine (Rule.ensures_nextIs _).andThen fun _ => .of_branches ?_ (.pure readable)
  refine (Rule.ensures_mark '!').andThen fun _ => .pure ⟨readable.isName, ?_⟩
  rw [hasDoubleNonNull, nullable, readable.single, Bool.or_self]

theorem TypeRef.ensures_rule (depth : Nat) : (rule depth).Ensures Readable := by
  have named : (do nonNullRule (.named (← Rule.name)) : Rule TypeRef).Ensures Readable :=
    Rule.ensures_name.bind fun _ isName => ensures_nonNullRule ⟨isName, rfl⟩ rfl
  induction depth with
  | zero => exact named
  | succ depth ih =>
    refine (Rule.ensures_nextIs _).andThen fun _ => .of_branches ?_ named
    refine (Rule.ensures_mark '[').andThen fun _ => ih.bind fun element readable => ?_
    exact (Rule.ensures_mark ']').andThen fun _ =>
      ensures_nonNullRule ⟨readable.isName, readable.single⟩ rfl

theorem ensures_descriptionRule : descriptionRule.Ensures fun _ => True := by
  refine Rule.ensures_peek?.andThen fun next => ?_
  split
  · exact (Rule.ensures_expect _).andThen fun _ => .pure trivial
  · exact .pure trivial

theorem InputValue.ensures_rule (depth : Nat) : (rule depth).Ensures Readable := by
  refine ensures_descriptionRule.andThen fun _ => Rule.ensures_name.bind fun name isName => ?_
  refine (Rule.ensures_mark ':').andThen fun _ => (TypeRef.ensures_rule depth).bind fun type readable => ?_
  have initial : (do Rule.mark '='; Value.rule true depth : Rule Value).Ensures (Value.Readable true depth) :=
    (Rule.ensures_mark '=').andThen fun _ => Value.ensures_rule true depth
  refine (Rule.ensures_optionally _ initial).bind fun _ _ => ?_
  exact (Directive.ensures_rules depth).andThen fun _ => .pure ⟨isName, readable⟩

theorem Rule.ensures_enclosed {α : Type} {holds : α → Prop} {rule : Nat → Rule α} (opening closing : Char)
    (own : ∀ depth, (rule depth).Ensures holds) (depth : Nat) :
    (Rule.enclosed opening closing rule depth).Ensures fun items => ∀ item ∈ items, holds item := by
  cases depth with
  | zero => exact .pure nofun
  | succ depth =>
    refine (Rule.ensures_nextIs _).andThen fun _ => .of_branches ?_ (.pure nofun)
    refine (Rule.ensures_mark opening).andThen fun _ => ?_
    refine (Rule.ensures_oneOrMore closing (own depth)).bind fun items each => ?_
    exact (Rule.ensures_mark closing).andThen fun _ => .pure each.2

theorem FieldDefinition.ensures_rule (depth : Nat) : (rule depth).Ensures Readable := by
  refine ensures_descriptionRule.andThen fun _ => Rule.ensures_name.bind fun name isName => ?_
  refine (Rule.ensures_enclosed _ _ InputValue.ensures_rule depth).bind fun arguments each => ?_
  refine (Rule.ensures_mark ':').andThen fun _ => (TypeRef.ensures_rule depth).bind fun type readable => ?_
  exact (Directive.ensures_rules depth).andThen fun _ => .pure ⟨isName, each, readable⟩

theorem EnumValue.ensures_rule (depth : Nat) : (rule depth).Ensures fun _ => True := by
  refine ensures_descriptionRule.andThen fun _ => Rule.ensures_name.bind fun _ _ => ?_
  exact (Directive.ensures_rules depth).andThen fun _ => .pure trivial

theorem Rule.ensures_separatedNames (separator : Char) :
    (Rule.separatedNames separator).Ensures fun names => ∀ name ∈ names, isName name = true := by
  have further : (do Rule.mark separator; Rule.name : Rule String).Ensures fun name => isName name = true :=
    (Rule.ensures_mark separator).andThen fun _ => Rule.ensures_name
  refine (Rule.ensures_optionally _ (Rule.ensures_mark separator)).bind fun _ _ => ?_
  refine Rule.ensures_name.bind fun first isName => (Rule.ensures_repeatWhile further).bind fun rest each => ?_
  exact .pure (List.forall_mem_cons.mpr ⟨isName, each⟩)

theorem ensures_interfacesRule : interfacesRule.Ensures fun _ => True := by
  refine (Rule.ensures_nextIs _).andThen fun _ => .of_branches ?_ (.pure trivial)
  exact (Rule.ensures_keyword _).andThen fun _ => (Rule.ensures_separatedNames '&').weaken fun _ _ => trivial

theorem TypeBody.ensures_rule (depth : Nat) :
    (rule depth).Ensures fun result => isName result.1 = true ∧ result.2.1.Readable := by
  refine (Rule.ensures_take fun _ _ _ _ => trivial).andThen fun kind => Rule.ensures_name.bind fun _ isName => ?_
  have directives := Directive.ensures_rules depth
  have fields := Rule.ensures_enclosed '{' '}' FieldDefinition.ensures_rule depth
  split
  · exact directives.andThen fun _ => .pure ⟨isName, trivial⟩
  · exact ensures_interfacesRule.andThen fun _ => directives.andThen fun _ =>
      fields.bind fun _ each => .pure ⟨isName, each⟩
  · exact ensures_interfacesRule.andThen fun _ => directives.andThen fun _ =>
      fields.bind fun _ each => .pure ⟨isName, each⟩
  · have members := (Rule.ensures_mark '=').andThen fun _ => Rule.ensures_separatedNames '|'
    refine directives.andThen fun _ => (Rule.ensures_optionally _ members).bind fun names each => .pure ⟨isName, ?_⟩
    cases names with
    | none => exact nofun
    | some names => exact each names rfl
  · exact directives.andThen fun _ =>
      (Rule.ensures_enclosed '{' '}' EnumValue.ensures_rule depth).bind fun _ _ => .pure ⟨isName, trivial⟩
  · exact directives.andThen fun _ =>
      (Rule.ensures_enclosed '{' '}' InputValue.ensures_rule depth).bind fun _ each => .pure ⟨isName, each⟩

theorem ensures_directiveDefinitionRule (depth : Nat) :
    (directiveDefinitionRule depth).Ensures fun _ => True := by
  have location : directiveLocationRule.Ensures fun _ => True := Rule.ensures_take fun _ _ _ _ => trivial
  have further : (do Rule.mark '|'; directiveLocationRule : Rule Unit).Ensures fun _ => True :=
    (Rule.ensures_mark '|').andThen fun _ => location
  refine (Rule.ensures_keyword _).andThen fun _ => (Rule.ensures_mark '@').andThen fun _ => ?_
  refine Rule.ensures_name.bind fun _ _ => ?_
  refine (Rule.ensures_enclosed _ _ InputValue.ensures_rule depth).bind fun _ _ => ?_
  refine (Rule.ensures_optionally _ (Rule.ensures_keyword _)).bind fun _ _ => ?_
  refine (Rule.ensures_keyword _).andThen fun _ => ?_
  refine (Rule.ensures_optionally _ (Rule.ensures_mark '|')).bind fun _ _ => ?_
  refine Rule.ensures_peek?.andThen fun _ => .of_branches ?_ (.pure trivial)
  exact location.andThen fun _ => (Rule.ensures_repeatWhile further).bind fun _ _ => .pure trivial

theorem RootNames.ensures_rule (depth : Nat) : (rule depth).Ensures fun _ => True := by
  have entry : (do
      let kind ← Rule.name
      Rule.mark ':'
      return (kind, ← Rule.name) : Rule (String × String)).Ensures fun _ => True :=
    Rule.ensures_name.bind fun _ _ => (Rule.ensures_mark ':').andThen fun _ =>
      Rule.ensures_name.bind fun _ _ => .pure trivial
  refine Rule.ensures_remaining.andThen fun _ => (Rule.ensures_keyword _).andThen fun _ => ?_
  refine (Directive.ensures_rules depth).andThen fun _ => (Rule.ensures_mark '{').andThen fun _ => ?_
  refine (Rule.ensures_zeroOrMore '}' entry).bind fun _ _ => (Rule.ensures_mark '}').andThen fun _ => ?_
  split
  · exact .pure trivial
  · exact Rule.ensures_failAt _

theorem SchemaItem.ensures_rule (depth : Nat) : (rule depth).Ensures Readable := by
  refine Rule.ensures_peek?.andThen fun _ => ?_
  split
  · exact (RootNames.ensures_rule depth).andThen fun _ => .pure trivial
  · have addition : (TypeExtension.rule depth).Ensures fun addition => addition.body.Readable := by
      refine (Rule.ensures_keyword _).andThen fun _ => Rule.ensures_remaining.andThen fun _ => ?_
      refine (TypeBody.ensures_rule depth).bind fun result readable => ?_
      exact .of_branches (.pure readable.2) (Rule.ensures_failAt _)
    exact addition.bind fun _ readable => .pure readable
  · refine ensures_descriptionRule.andThen fun _ => ?_
    refine (Rule.ensures_nextIs _).andThen fun _ => .of_branches ?_ ?_
    · exact (ensures_directiveDefinitionRule depth).andThen fun _ => .pure trivial
    · exact (TypeBody.ensures_rule depth).bind fun _ readable => .pure ⟨readable.1, readable.2⟩

end Rules

theorem TypeBody.Readable.append {body addition whole : TypeBody} (own : body.Readable) (added : addition.Readable)
    (appended : body.append? addition = some whole) : whole.Readable := by
  cases body <;> cases addition <;> cases appended <;> simp_all [TypeBody.Readable, or_imp]

namespace Schema

theorem readable_extend {types result : List TypeDefinition} {addition : TypeExtension}
    (own : ∀ type ∈ types, type.Readable) (added : addition.body.Readable)
    (extended : extend types addition = .ok result) : ∀ type ∈ result, type.Readable := by
  unfold extend at extended
  split at extended
  · cases extended
  · rename_i type found
    have readable := own type (List.mem_of_find?_eq_some found)
    split at extended
    · cases extended
    · rename_i body appended
      cases extended
      intro other member
      rcases mem_of_mem_putBy _ member with rfl | member
      · exact ⟨readable.isName, readable.body.append added appended⟩
      · exact own other member

theorem readable_definitionsOf {items : List SchemaItem} (each : ∀ item ∈ items, item.Readable) :
    ∀ type ∈ definitionsOf items, type.Readable := by
  intro type member
  rcases List.mem_append.mp (mem_of_mem_distinctBy _ member) with builtIn | written
  · obtain ⟨name, listed, rfl⟩ := List.mem_map.mp builtIn
    have named : ∀ name ∈ builtInScalars, isName name = true := by decide
    exact ⟨named name listed, trivial⟩
  · obtain ⟨item, inItems, taken⟩ := List.mem_filterMap.mp written
    cases item <;> cases taken
    exact each _ inItems

theorem Readable.isName_possibleTypes {schema : Schema} (readable : schema.Readable) {abstract type : String}
    (possible : type ∈ schema.possibleTypes abstract) : isName type = true := by
  unfold possibleTypes at possible
  split at possible
  · cases possible
  · rename_i own found
    split at possible
    · rw [List.mem_singleton.mp possible]
      exact (readable own (List.mem_of_find?_eq_some found)).isName
    · rw [listed, mem_distinct] at possible
      obtain ⟨other, member, adds⟩ := List.mem_flatMap.mp possible
      have ofOther := readable other member
      unfold concreteOf at adds
      split at adds
      · rename_i members body
        have named := ofOther.body
        rw [body] at named
        split at adds
        · exact named type adds
        · cases adds
      · split at adds
        · rw [List.mem_singleton.mp adds]
          exact ofOther.isName
        · cases adds
      · cases adds

/-- Whatever is read from a text could be written in one. -/
theorem readable_of_read {path : Option String} {text : String} {schema : Schema}
    (read : Schema.read path text = .ok schema) : schema.Readable := by
  obtain ⟨items, parsed, built⟩ := bind_eq_ok.mp read
  have each : ∀ item ∈ items, item.Readable := by
    cases outcome : SchemaItem.parse text with
    | error place =>
      rw [outcome] at parsed
      cases parsed
    | ok written =>
      rw [outcome] at parsed
      cases parsed
      exact (Rule.ensures_allOf (SchemaItem.ensures_rule _)).of_parse outcome
  refine holds_of_foldlM (fun types => ∀ type ∈ types, type.Readable) ?_ (readable_definitionsOf each)
    (ofItems_eq_ok built).1
  intro addition member types result own extended
  obtain ⟨item, inItems, taken⟩ := List.mem_filterMap.mp member
  cases item <;> cases taken
  exact readable_extend own (each _ inItems) extended

end Schema

end QueryTypes
