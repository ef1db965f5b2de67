import QueryTypes.Proofs.Combining
import QueryTypes.Proofs.ResponseKeys

namespace QueryTypes

open ResponseField

def ResponseField.Absorbing (holds : ResponseField → Prop) : Prop :=
  ∀ x y, x.responseName = y.responseName → holds x → holds y → holds (x.absorb y)

theorem ResponseField.Absorbing.mergeAll {holds : ResponseField → Prop} (absorbing : Absorbing holds)
    {xs ys : List ResponseField} (left : ∀ x ∈ xs, holds x) (right : ∀ y ∈ ys, holds y) :
    ∀ z ∈ ResponseField.mergeAll xs ys, holds z := by
  rw [mergeAll_eq]
  exact forall_mem_mergeBy left right fun y member x same held => absorbing x y same held (right y member)

namespace Compiler

/-- From selections on a type to a field in them, through fragments only: with the conditions of the
    branches opened on the way and the type that the field is collected on. -/
inductive Finds (c : Compiler) : TypeDefinition → List Selection → List String →
    TypeDefinition → FieldHead → List Selection → Prop
  | here {parent selections head span inner} (selected : .field head span inner ∈ selections) :
    Finds c parent selections [] parent head inner
  | merged {parent selections selection condition within branches type head inner}
    (selected : selection ∈ selections) (fragment : c.FragmentOn parent selection condition within)
    (applies : c.opens parent condition = false)
    (onward : Finds c parent within branches type head inner) :
    Finds c parent selections branches type head inner
  | branched {parent selections selection condition within branches type head inner}
    (selected : selection ∈ selections) (fragment : c.FragmentOn parent selection condition within)
    (opened : c.opens parent condition = true)
    (onward : Finds c condition within branches type head inner) :
    Finds c parent selections (condition.name :: branches) type head inner

inductive Makes (c : Compiler) (parent : TypeDefinition) (head : FieldHead)
    (inner : List Selection) : ResponseField → Prop
  | leaf {definition type} (looked : c.fieldType parent head.name = .ok (definition, type))
    (simple : type.isComposite = false) (conditional : Bool) :
    Makes c parent head inner (makeField head definition conditional ⟨[], [], [], [type.name]⟩)
  | composite {stack definition type below}
    (looked : c.fieldType parent head.name = .ok (definition, type))
    (hasFields : type.isComposite = true) (inside : c.Run stack type false inner {} below)
    (conditional : Bool) :
    Makes c parent head inner (makeField head definition conditional (c.finish type below))

def Contributes (c : Compiler) (parent : TypeDefinition) (selections : List Selection)
    (place : Option String) (field : ResponseField) : Prop :=
  ∃ branches type head inner, c.Finds parent selections branches type head inner ∧
    FiledUnder branches place ∧ c.Makes type head inner field

variable {c : Compiler} {parent : TypeDefinition} {stack : List String} {conditional : Bool}
  {selections : List Selection}

theorem Finds.widen {part : List Selection} {branches : List String} {type : TypeDefinition}
    {head : FieldHead} {inner : List Selection}
    (found : c.Finds parent part branches type head inner) (subset : part ⊆ selections) :
    c.Finds parent selections branches type head inner := by
  cases found with
  | here selected => exact .here (subset selected)
  | merged selected fragment applies onward => exact .merged (subset selected) fragment applies onward
  | branched selected fragment opened onward =>
    exact .branched (subset selected) fragment opened onward

theorem Contributes.tail {selection : Selection} {place : Option String} {field : ResponseField}
    (contributes : c.Contributes parent selections place field) :
    c.Contributes parent (selection :: selections) place field := by
  obtain ⟨branches, type, head, inner, found, filed, makes⟩ := contributes
  exact ⟨branches, type, head, inner, found.widen (List.subset_cons_self _ _), filed, makes⟩

theorem Contributes.field {head : FieldHead} {span : Span} {inner : List Selection}
    {field : ResponseField} (makes : c.Makes parent head inner field) :
    c.Contributes parent (.field head span inner :: selections) none field :=
  ⟨[], parent, head, inner, .here List.mem_cons_self, rfl, makes⟩

theorem Contributes.merged {selection : Selection} {condition : TypeDefinition}
    {inner : List Selection} (fragment : c.FragmentOn parent selection condition inner)
    (applies : c.opens parent condition = false) {place : Option String} {field : ResponseField}
    (contributes : c.Contributes parent inner place field) :
    c.Contributes parent (selection :: selections) place field := by
  obtain ⟨branches, type, head, below, found, filed, makes⟩ := contributes
  exact ⟨branches, type, head, below, .merged List.mem_cons_self fragment applies found, filed, makes⟩

/-- What goes to the target of the inner selections goes to the branch. -/
theorem Contributes.branched {selection : Selection} {condition : TypeDefinition}
    {inner : List Selection} (fragment : c.FragmentOn parent selection condition inner)
    (opened : c.opens parent condition = true) {other : String} {field : ResponseField}
    (contributes : c.Contributes condition inner
      (if other = condition.name then none else some other) field) :
    c.Contributes parent (selection :: selections) (some other) field := by
  obtain ⟨branches, type, head, below, found, filed, makes⟩ := contributes
  refine ⟨_, type, head, below, .branched List.mem_cons_self fragment opened found, ?_, makes⟩
  rw [filedUnder_cons_some]
  split
  · rename_i same
    rwa [if_pos same] at filed
  · rename_i differ
    rwa [if_neg differ] at filed

theorem forall_fieldsAt_record {holds : Option String → ResponseField → Prop}
    (absorbing : ∀ place, Absorbing (holds place)) {s : Collection}
    (start : ∀ place, ∀ field ∈ s.fieldsAt place, holds place field) {new : ResponseField}
    (made : holds none new) (leaves : List String) :
    ∀ place, ∀ field ∈ (s.record new leaves).fieldsAt place, holds place field := by
  intro place
  cases place with
  | none =>
    change ∀ field ∈ new.mergeInto s.target.fields, holds none field
    rw [mergeInto_eq, ← mergeAll_eq]
    exact (absorbing none).mergeAll (start none) (by simpa using made)
  | some condition => exact start (some condition)

def Inside (condition : String) (holds : Option String → ResponseField → Prop)
    (place : Option String) (field : ResponseField) : Prop :=
  ∀ other, (if other = condition then none else some other) = place → holds (some other) field

/-- What holds of each field that selections have, and of fields merged from such, holds of all
    fields that are collected. -/
theorem Run.forall_fieldsAt {holds : Option String → ResponseField → Prop} {s s' : Collection}
    (run : c.Run stack parent conditional selections s s')
    (absorbing : ∀ place, Absorbing (holds place))
    (each : ∀ place field, c.Contributes parent selections place field → holds place field)
    (start : ∀ place, ∀ field ∈ s.fieldsAt place, holds place field) :
    ∀ place, ∀ field ∈ s'.fieldsAt place, holds place field := by
  induction run generalizing holds with
  | nil => exact start
  | leaf looked simple after ih =>
    apply ih absorbing fun place field later => each place field later.tail
    exact forall_fieldsAt_record absorbing start (each none _ (.field (.leaf looked simple _))) _
  | composite looked hasFields inside after _ ih =>
    apply ih absorbing fun place field later => each place field later.tail
    exact forall_fieldsAt_record absorbing start
      (each none _ (.field (.composite looked hasFields inside _))) _
  | merge fragment fresh applies inside after below ih =>
    apply ih absorbing fun place field later => each place field later.tail
    apply below absorbing fun place field within => each place field (.merged fragment applies within)
    simpa using start
  | @branch _ _ _ selection _ condition _ s filled _ fragment fresh opened inside after below ih =>
    have within : ∀ place, ∀ field ∈ filled.fieldsAt place, Inside condition.name holds place field := by
      apply below
      · intro place x y same left right other outer
        exact absorbing _ x y same (left other outer) (right other outer)
      · rintro place field contributes other rfl
        exact each (some other) field (.branched fragment opened contributes)
      · rintro place field member other rfl
        rw [Collection.fieldsAt_enter, Collection.fieldsAt_note] at member
        exact start (some other) field member
    apply ih absorbing fun place field later => each place field later.tail
    intro place field member
    cases place with
    | none =>
      apply start none
      rw [← Collection.fieldsAt_note s selection]
      exact member
    | some other =>
      rw [Collection.fieldsAt_leave_some] at member
      exact within _ field member other rfl
  | mention unmerged after ih =>
    apply ih absorbing fun place field later => each place field later.tail
    simpa using start

/-- Selections on a type have a field of this key, with a type that has fields and selections below
    it, and it goes to the target or to the branch of a condition. -/
def Gathers (c : Compiler) (parent : TypeDefinition) (selections : List Selection)
    (place : Option String) (key : String) (type : TypeDefinition) (inner : List Selection) : Prop :=
  ∃ branches above head definition, c.Finds parent selections branches above head inner ∧
    FiledUnder branches place ∧ head.responseName = key ∧
    c.fieldType above head.name = .ok (definition, type) ∧ type.isComposite = true

/-- Fields and cases merged from what the given selections are compiled to. -/
inductive Blend (c : Compiler) (sources : TypeDefinition → List Selection → Prop) :
    List ResponseField → List (TypeCase ResponseField) → Prop
  | empty : Blend c sources [] []
  | source {stack type inner below} (listed : sources type inner)
    (inside : c.Run stack type false inner {} below) :
    Blend c sources (c.finish type below).fields (c.finish type below).cases
  | merge {fields cases others more} (left : Blend c sources fields cases)
    (right : Blend c sources others more) :
    Blend c sources (mergeAll fields others) (mergeCases cases more)

structure MadeFrom (c : Compiler) (sources : TypeDefinition → List Selection → Prop)
    (field : ResponseField) : Prop where
  blend : c.Blend sources field.fields field.cases
  typed : ∀ type, c.schema.type? field.type.baseName = some type → type.isComposite = true →
    ∃ inner, sources type inner

variable {sources wider : TypeDefinition → List Selection → Prop}

theorem Blend.mono {fields : List ResponseField} {cases : List (TypeCase ResponseField)}
    (blend : c.Blend sources fields cases) (subset : ∀ type inner, sources type inner → wider type inner) :
    c.Blend wider fields cases := by
  induction blend with
  | empty => exact .empty
  | source listed inside => exact .source (subset _ _ listed) inside
  | merge _ _ left right => exact .merge left right

theorem MadeFrom.mono {field : ResponseField} (node : c.MadeFrom sources field)
    (subset : ∀ type inner, sources type inner → wider type inner) : c.MadeFrom wider field := by
  refine ⟨node.blend.mono subset, ?_⟩
  intro type found hasFields
  obtain ⟨inner, listed⟩ := node.typed type found hasFields
  exact ⟨inner, subset _ _ listed⟩

theorem MadeFrom.absorb {x y : ResponseField} (left : c.MadeFrom sources x) (right : c.MadeFrom sources y) :
    c.MadeFrom sources (x.absorb y) := ⟨.merge left.blend right.blend, left.typed⟩

/-- A family of sources for each key makes a property that fields keep when they are merged. -/
theorem absorbing_node (family : String → TypeDefinition → List Selection → Prop) :
    Absorbing fun field => c.MadeFrom (family field.responseName) field := by
  intro x y same left right
  rw [← same] at right
  exact left.absorb right

theorem type?_of_fieldType {name : String} {definition : FieldDefinition} {type : TypeDefinition}
    (looked : c.fieldType parent name = .ok (definition, type)) :
    c.schema.field? parent name = some definition ∧
      c.schema.type? definition.type.baseName = some type := by
  unfold fieldType at looked
  split at looked
  · cases looked
  · rename_i other found
    obtain ⟨known, lookedUp, same⟩ := bind_eq_ok.mp looked
    cases same
    refine ⟨found, ?_⟩
    unfold Compiler.type at lookedUp
    split at lookedUp
    · rename_i also
      rw [also, Except.ok.inj lookedUp]
    · cases lookedUp

theorem Contributes.node {place : Option String} {field : ResponseField}
    (contributes : c.Contributes parent selections place field) :
    c.MadeFrom (c.Gathers parent selections place field.responseName) field := by
  obtain ⟨branches, above, head, inner, found, filed, makes⟩ := contributes
  cases makes with
  | leaf looked simple =>
    refine ⟨.empty, ?_⟩
    intro other known hasFields
    cases (type?_of_fieldType looked).2.symm.trans known
    rw [simple] at hasFields
    cases hasFields
  | composite looked hasFields inside =>
    have gathers : c.Gathers parent selections place head.responseName _ inner :=
      ⟨branches, above, head, _, found, filed, rfl, looked, hasFields⟩
    refine ⟨.source gathers inside, ?_⟩
    intro other known _
    cases (type?_of_fieldType looked).2.symm.trans known
    exact ⟨inner, gathers⟩

theorem Run.node {s : Collection} (run : c.Run stack parent conditional selections {} s)
    (place : Option String) : ∀ field ∈ s.fieldsAt place,
      c.MadeFrom (c.Gathers parent selections place field.responseName) field := by
  apply run.forall_fieldsAt (fun place => absorbing_node (c.Gathers parent selections place))
  · exact fun place field => Contributes.node
  · intro place field member
    cases place <;> cases member

def always (c : Compiler) (sources : TypeDefinition → List Selection → Prop) (key : String)
    (type : TypeDefinition) (inner : List Selection) : Prop :=
  ∃ parent selections, sources parent selections ∧ c.Gathers parent selections none key type inner

def onlyFor (c : Compiler) (sources : TypeDefinition → List Selection → Prop) (object key : String)
    (type : TypeDefinition) (inner : List Selection) : Prop :=
  ∃ parent selections place, sources parent selections ∧
    object ∈ c.schema.possibleTypes parent.name ∧
    (∀ condition ∈ place, object ∈ c.schema.possibleTypes condition) ∧
    c.Gathers parent selections place key type inner

theorem Blend.nodes {fields : List ResponseField} {cases : List (TypeCase ResponseField)}
    (blend : c.Blend sources fields cases) :
    ∀ child ∈ fields, c.MadeFrom (c.always sources child.responseName) child := by
  induction blend with
  | empty => exact nofun
  | source listed inside =>
    intro child member
    apply (inside.node none child member).mono
    exact fun type inner gathers => ⟨_, _, listed, gathers⟩
  | merge _ _ left right => exact (absorbing_node (c.always sources)).mergeAll left right

end Compiler

namespace ResolvedBranch

variable {branches : List ResolvedBranch} {base : Collected}

theorem forall_mem_foldl {holds : ResponseField → Prop} (absorbing : Absorbing holds)
    {parts : List ResolvedBranch} {fields : List ResponseField} (start : ∀ field ∈ fields, holds field)
    (each : ∀ part ∈ parts, ∀ field ∈ part.content.fields, holds field) :
    ∀ field ∈ parts.foldl (fun fields part => mergeAll fields part.content.fields) fields,
      holds field := by
  induction parts generalizing fields with
  | nil => exact start
  | cons part rest ih =>
    rw [List.forall_mem_cons] at each
    exact ih (absorbing.mergeAll start each.1) each.2

/-- A case has fields of the base and of the branches that apply to the first of its types. -/
theorem exists_first {typeCase : TypeCase ResponseField}
    (member : typeCase ∈ exclusive base branches) :
    ∃ first ∈ typeCase.possibleTypes, (∃ branch ∈ branches, first ∈ branch.types) ∧
      typeCase.condition = groupOf branches first ∧
      ∀ holds, Absorbing holds → (∀ field ∈ base.fields, holds field) →
        (∀ branch ∈ branches, first ∈ branch.types → ∀ field ∈ branch.content.fields, holds field) →
        ∀ field ∈ typeCase.fields, holds field := by
  obtain ⟨type, covered, rfl⟩ := mem_exclusive.mp member
  cases members : groupMembers branches (groupOf branches type) with
  | nil =>
    have present := mem_groupMembers.mpr ⟨covered, rfl⟩
    rw [members] at present
    cases present
  | cons first rest =>
    have inGroup : first ∈ groupMembers branches (groupOf branches type) := by simp [members]
    obtain ⟨coveredFirst, same⟩ := mem_groupMembers.mp inGroup
    refine ⟨first, List.mem_cons_self, coveredFirst, same.symm, ?_⟩
    intro holds absorbing ofBase ofBranches
    apply forall_mem_foldl absorbing ofBase
    intro part applies
    obtain ⟨inBranches, admits⟩ := mem_applying.mp applies
    exact ofBranches part inBranches admits

end ResolvedBranch

namespace Compiler

variable {c : Compiler} {parent : TypeDefinition} {stack : List String} {selections : List Selection}

/-- The fields that are collected for an object type come from fields that are there for it. -/
theorem Run.node_onlyFor {sources : TypeDefinition → List Selection → Prop} {s : Collection}
    (run : c.Run stack parent false selections {} s) (listed : sources parent selections)
    {object : String} (possible : object ∈ c.schema.possibleTypes parent.name) :
    (∀ field ∈ s.target.fields, c.MadeFrom (c.onlyFor sources object field.responseName) field) ∧
    ∀ branch ∈ s.branches, object ∈ c.schema.possibleTypes branch.condition →
      ∀ field ∈ branch.content.fields,
        c.MadeFrom (c.onlyFor sources object field.responseName) field := by
  have kind : s.WellKeyed := run.wellKeyed Collection.wellKeyed_empty
  constructor
  · intro field member
    apply (run.node none field member).mono
    exact fun type inner gathers => ⟨_, _, none, listed, possible, nofun, gathers⟩
  · intro branch inBranches admits field member
    rw [← kind.fieldsAt_branch inBranches] at member
    apply (run.node _ field member).mono
    intro type inner gathers
    exact ⟨_, _, some branch.condition, listed, possible, by rintro _ ⟨⟩; exact admits, gathers⟩

/-- The places of two fields in selections on two types are compatible: both are there for all types,
    or for some object type of both. -/
def Together (c : Compiler) (parent other : TypeDefinition) (place otherPlace : Option String) : Prop :=
  place = none ∧ otherPlace = none ∨
    ∃ object, object ∈ c.schema.possibleTypes parent.name ∧
      object ∈ c.schema.possibleTypes other.name ∧
      (∀ condition ∈ place, object ∈ c.schema.possibleTypes condition) ∧
      ∀ condition ∈ otherPlace, object ∈ c.schema.possibleTypes condition

/-- Selections that meet when the given ones are compiled: these themselves, and the selections below
    two fields of one key which are in compatible places of selections that meet. -/
inductive Meets (c : Compiler) (root : TypeDefinition) (start : List Selection) :
    TypeDefinition → List Selection → TypeDefinition → List Selection → Prop
  | itself : Meets c root start root start root start
  | deeper {parent selections other others place otherPlace key type inner otherType otherInner}
    (above : Meets c root start parent selections other others)
    (left : c.Gathers parent selections place key type inner)
    (right : c.Gathers other others otherPlace key otherType otherInner)
    (together : c.Together parent other place otherPlace) :
    Meets c root start type inner otherType otherInner

def Meeting (c : Compiler) (root : TypeDefinition) (start : List Selection)
    (sources : TypeDefinition → List Selection → Prop) : Prop :=
  ∀ parent selections other others, sources parent selections → sources other others →
    c.Meets root start parent selections other others

section Meeting

variable {root : TypeDefinition} {start : List Selection}
  {sources : TypeDefinition → List Selection → Prop}

theorem Meeting.always (meeting : c.Meeting root start sources) (key : String) :
    c.Meeting root start (c.always sources key) := by
  rintro type inner otherType otherInner ⟨parent, selections, listed, left⟩ ⟨other, others, also, right⟩
  exact .deeper (meeting _ _ _ _ listed also) left right (.inl ⟨rfl, rfl⟩)

theorem Meeting.onlyFor (meeting : c.Meeting root start sources) (object key : String) :
    c.Meeting root start (c.onlyFor sources object key) := by
  rintro type inner otherType otherInner ⟨parent, selections, place, listed, possible, admits, left⟩
    ⟨other, others, otherPlace, also, possibleAlso, admitsAlso, right⟩
  exact .deeper (meeting _ _ _ _ listed also) left right
    (.inr ⟨object, possible, possibleAlso, admits, admitsAlso⟩)

def only (root : TypeDefinition) (start : List Selection) (type : TypeDefinition)
    (inner : List Selection) : Prop := type = root ∧ inner = start

theorem meeting_only : c.Meeting root start (only root start) := by
  rintro _ _ _ _ ⟨rfl, rfl⟩ ⟨rfl, rfl⟩
  exact .itself

def Sourced (c : Compiler) (root : TypeDefinition) (start : List Selection)
    (field : ResponseField) : Prop :=
  ∃ sources, c.Meeting root start sources ∧ c.MadeFrom sources field

theorem Sourced.fields {field : ResponseField} (sourced : c.Sourced root start field) :
    ∀ child ∈ field.fields, c.Sourced root start child := by
  obtain ⟨sources, meeting, node⟩ := sourced
  intro child member
  exact ⟨_, meeting.always child.responseName, node.blend.nodes child member⟩

theorem Run.sourced {s : Collection} (run : c.Run stack root false start {} s) :
    ∀ field ∈ s.target.fields, c.Sourced root start field := by
  have blend : c.Blend (only root start) (c.finish root s).fields (c.finish root s).cases :=
    .source ⟨rfl, rfl⟩ run
  intro field member
  exact ⟨_, meeting_only.always field.responseName, blend.nodes field member⟩

end Meeting

end Compiler

namespace ResponseField

inductive Within (field : ResponseField) : List ResponseField → Prop
  | here {fields} (member : field ∈ fields) : Within field fields
  | inFields {fields above} (member : above ∈ fields) (deeper : Within field above.fields) :
    Within field fields
  | inCase {fields above typeCase} (member : above ∈ fields) (listed : typeCase ∈ above.cases)
    (deeper : Within field typeCase.fields) : Within field fields

/-- What holds of fields, and with a field of those directly below it, holds at every depth. -/
theorem Within.holds {holds : ResponseField → Prop}
    (ofFields : ∀ field, holds field → ∀ child ∈ field.fields, holds child)
    (ofCases : ∀ field, holds field → ∀ typeCase ∈ field.cases, ∀ child ∈ typeCase.fields, holds child)
    {field : ResponseField} {fields : List ResponseField} (within : Within field fields)
    (start : ∀ field ∈ fields, holds field) : holds field := by
  induction within with
  | here member => exact start field member
  | inFields member _ ih => exact ih (ofFields _ (start _ member))
  | inCase member listed _ ih => exact ih (ofCases _ (start _ member) _ listed)

end ResponseField

theorem Compiler.Finds.eq_of_field {c : Compiler} {parent above : TypeDefinition} {first : FieldHead}
    {span : Span} {below : List Selection} {branches : List String} {head : FieldHead}
    {inner : List Selection}
    (found : c.Finds parent [.field first span below] branches above head inner) :
    branches = [] ∧ above = parent ∧ head = first ∧ inner = below := by
  cases found with
  | here selected =>
    rw [List.mem_singleton] at selected
    cases selected
    exact ⟨rfl, rfl, rfl, rfl⟩
  | merged selected fragment =>
    rw [List.mem_singleton.mp selected] at fragment
    cases fragment
  | branched selected fragment =>
    rw [List.mem_singleton.mp selected] at fragment
    cases fragment

-- A query that selects `n` twice, which is an `A`, in the same way.
namespace Overlap

/-- `n { x ... on B { y } } n { x ... on B { y } }` -/
def repeated : List Selection := [field "n" flat, field "n" flat]

def repeatedField : ResponseField :=
  ⟨"n", "n", .named "A", none, false, [leaf "x"], [], [⟨"B", ["T"], [leaf "x", leaf "y"], []⟩]⟩

def compiler : Compiler := ⟨schema, [], true⟩

theorem repeated_run : compiler.Run [] query false repeated {} ⟨⟨[repeatedField], []⟩, [], ["Int"]⟩ :=
  Compiler.collectAll_eq_ok_iff.mp rfl

theorem not_gathers_flat {place : Option String} {key : String}
    {type : TypeDefinition} {inner : List Selection} :
    ¬compiler.Gathers interfaceA flat place key type inner := by
  rintro ⟨branches, above, head, definition, found, _, _, looked, hasFields⟩
  cases found with
  | here selected =>
    simp only [flat, field, inline, List.mem_cons, List.not_mem_nil, or_false, Selection.field.injEq,
      reduceCtorEq] at selected
    obtain ⟨rfl, rfl, rfl⟩ := selected
    cases looked
    cases hasFields
  | merged selected fragment applies onward =>
    simp only [flat, List.mem_cons, List.not_mem_nil, or_false] at selected
    rcases selected with rfl | rfl
    · cases fragment
    · cases fragment with
      | inline resolved =>
        cases resolved
        cases applies
  | branched selected fragment opened onward =>
    simp only [flat, List.mem_cons, List.not_mem_nil, or_false] at selected
    rcases selected with rfl | rfl
    · cases fragment
    · cases fragment with
      | inline resolved =>
        cases resolved
        obtain ⟨_, rfl, rfl, rfl⟩ := onward.eq_of_field
        cases looked
        cases hasFields

theorem gathers_repeated {place : Option String} {key : String}
    {type : TypeDefinition} {inner : List Selection}
    (gathers : compiler.Gathers query repeated place key type inner) :
    type = interfaceA ∧ inner = flat := by
  obtain ⟨branches, above, head, definition, found, _, _, looked, hasFields⟩ := gathers
  cases found with
  | here selected =>
    simp only [repeated, field, List.mem_cons, List.not_mem_nil, or_self, or_false,
      Selection.field.injEq] at selected
    obtain ⟨rfl, rfl, rfl⟩ := selected
    cases looked
    exact ⟨rfl, rfl⟩
  | merged selected fragment applies onward =>
    simp only [repeated, List.mem_cons, List.not_mem_nil, or_self, or_false] at selected
    subst selected
    cases fragment
  | branched selected fragment applies onward =>
    simp only [repeated, List.mem_cons, List.not_mem_nil, or_self, or_false] at selected
    subst selected
    cases fragment

theorem meets_repeated_cases {parent other : TypeDefinition}
    {selections others : List Selection}
    (meets : compiler.Meets query repeated parent selections other others) :
    parent = query ∧ selections = repeated ∧ other = query ∧ others = repeated ∨
      parent = interfaceA ∧ selections = flat ∧ other = interfaceA ∧ others = flat := by
  induction meets with
  | itself => exact .inl ⟨rfl, rfl, rfl, rfl⟩
  | deeper above left right together ih =>
    rcases ih with ⟨rfl, rfl, rfl, rfl⟩ | ⟨rfl, rfl, rfl, rfl⟩
    · obtain ⟨rfl, rfl⟩ := gathers_repeated left
      obtain ⟨rfl, rfl⟩ := gathers_repeated right
      exact .inr ⟨rfl, rfl, rfl, rfl⟩
    · exact absurd left not_gathers_flat

theorem meets_repeated {parent other : TypeDefinition}
    {selections others : List Selection}
    (meets : compiler.Meets query repeated parent selections other others) :
    parent = other ∧ selections = others := by
  rcases meets_repeated_cases meets with ⟨rfl, rfl, rfl, rfl⟩ | ⟨rfl, rfl, rfl, rfl⟩ <;> exact ⟨rfl, rfl⟩

end Overlap

end QueryTypes
