import QueryTypes.Proofs.Combining
import QueryTypes.Proofs.ResponseKeys

namespace QueryTypes

open ResponseField

theorem distinct_append_of_disjoint {xs ys : List String} (apart : ∀ y ∈ ys, y ∉ xs) :
    distinct (xs ++ ys) = distinct xs ++ distinct ys := by
  rw [distinct, insertAll_append]
  apply insertAll_eq_append
  intro y member
  simpa using apart y member

namespace ResolvedBranch

variable {branches part : List ResolvedBranch} {base own : Collected}

def Covers (branches : List ResolvedBranch) (type : String) : Prop :=
  ∃ branch ∈ branches, type ∈ branch.types

theorem mem_distinct_types {type : String} :
    type ∈ distinct (branches.flatMap (·.types)) ↔ Covers branches type := by
  simp [Covers]

theorem groupOf_congr {type : String} (same : applying branches type = applying part type) :
    groupOf branches type = groupOf part type := by
  rw [groupOf, groupOf, same]

theorem applying_eq_nil {type : String} (uncovered : ¬Covers branches type) :
    applying branches type = [] := by
  rw [List.eq_nil_iff_forall_not_mem]
  intro branch member
  exact uncovered ⟨branch, mem_applying.mp member⟩

/-- A group with the same types has the same case if the same branches apply to these. -/
theorem caseOf_congr {group : String} (members : groupMembers branches group = groupMembers part group)
    (same : ∀ type ∈ groupMembers part group, applying branches type = applying part type)
    (fields : base.fields = own.fields) :
    caseOf base branches group (groupMembers branches group) =
      caseOf own part group (groupMembers part group) := by
  rw [members]
  cases types : groupMembers part group with
  | nil => simp only [caseOf, fields]
  | cons first rest =>
    have first := same first (by simp [types])
    simp only [caseOf, fields, first]

variable {left right : List ResolvedBranch} {baseLeft baseRight : Collected}

/-- Branches that are made of two parts, each of which decides alone on the types that it applies
    to, are regrouped part by part. -/
theorem exclusive_append
    (types : distinct (branches.flatMap (·.types)) =
      distinct (left.flatMap (·.types)) ++ distinct (right.flatMap (·.types)))
    (onLeft : ∀ type, Covers left type → applying branches type = applying left type)
    (onRight : ∀ type, Covers right type → applying branches type = applying right type)
    (groups : ∀ type other, Covers left type → Covers right other →
      groupOf left type ≠ groupOf right other)
    (fieldsLeft : ∀ type, Covers left type → base.fields = baseLeft.fields)
    (fieldsRight : ∀ type, Covers right type → base.fields = baseRight.fields) :
    exclusive base branches = exclusive baseLeft left ++ exclusive baseRight right := by
  have groupLeft (type : String) (covers : type ∈ distinct (left.flatMap (·.types))) :
      groupOf branches type = groupOf left type :=
    groupOf_congr (onLeft type (mem_distinct_types.mp covers))
  have groupRight (type : String) (covers : type ∈ distinct (right.flatMap (·.types))) :
      groupOf branches type = groupOf right type :=
    groupOf_congr (onRight type (mem_distinct_types.mp covers))
  have names : distinct ((distinct (branches.flatMap (·.types))).map (groupOf branches)) =
      distinct ((distinct (left.flatMap (·.types))).map (groupOf left)) ++
        distinct ((distinct (right.flatMap (·.types))).map (groupOf right)) := by
    rw [types, List.map_append, List.map_congr_left groupLeft, List.map_congr_left groupRight]
    apply distinct_append_of_disjoint
    intro group inRight inLeft
    obtain ⟨other, coversRight, rfl⟩ := List.mem_map.mp inRight
    obtain ⟨type, coversLeft, same⟩ := List.mem_map.mp inLeft
    exact groups type other (mem_distinct_types.mp coversLeft) (mem_distinct_types.mp coversRight) same
  -- the types of a group of one part are in that part
  have members (group : String) : groupMembers branches group =
      groupMembers left group ++ groupMembers right group := by
    unfold groupMembers
    rw [types, List.filter_append]
    congr 1
    · exact List.filter_congr fun type covers => by rw [groupLeft type covers]
    · exact List.filter_congr fun type covers => by rw [groupRight type covers]
  have membersLeft {type : String} (covers : Covers left type) :
      groupMembers right (groupOf left type) = [] := by
    rw [List.eq_nil_iff_forall_not_mem]
    intro other member
    obtain ⟨coversOther, same⟩ := mem_groupMembers.mp member
    exact groups type other covers coversOther same.symm
  have membersRight {other : String} (covers : Covers right other) :
      groupMembers left (groupOf right other) = [] := by
    rw [List.eq_nil_iff_forall_not_mem]
    intro type member
    obtain ⟨coversType, same⟩ := mem_groupMembers.mp member
    exact groups type other coversType covers same
  rw [exclusive_eq, exclusive_eq baseLeft, exclusive_eq baseRight, names, List.map_append]
  congr 1
  · apply List.map_congr_left
    intro group member
    rw [mem_distinct, List.mem_map] at member
    obtain ⟨type, covers, rfl⟩ := member
    have covers := mem_distinct_types.mp covers
    apply caseOf_congr
    · rw [members, membersLeft covers, List.append_nil]
    · exact fun other inGroup => onLeft other (mem_groupMembers.mp inGroup).1
    · exact fieldsLeft type covers
  · apply List.map_congr_left
    intro group member
    rw [mem_distinct, List.mem_map] at member
    obtain ⟨type, covers, rfl⟩ := member
    have covers := mem_distinct_types.mp covers
    apply caseOf_congr
    · rw [members, membersRight covers, List.nil_append]
    · exact fun other inGroup => onRight other (mem_groupMembers.mp inGroup).1
    · exact fieldsRight type covers

end ResolvedBranch

namespace Branch

open ResolvedBranch

variable (schema : Schema) (scope : List String) {left right : List Branch}

theorem applying_resolve (branches : List Branch) (type : String) :
    applying (branches.map (resolve schema scope)) type =
      (branches.filter fun branch => (branch.resolve schema scope).types.contains type).map
        (resolve schema scope) := by
  rw [applying, List.filter_map]
  rfl

theorem applying_mergeBy (left right : List Branch) (type : String) :
    applying ((mergeBy Branch.condition Branch.absorb left right).map (resolve schema scope)) type =
      (mergeBy Branch.condition Branch.absorb
        (left.filter fun branch => (branch.resolve schema scope).types.contains type)
        (right.filter fun branch => (branch.resolve schema scope).types.contains type)).map
        (resolve schema scope) := by
  rw [applying_resolve, filter_mergeBy]
  · exact fun _ _ => rfl
  · intro first second same
    simp only [resolve, same]

theorem filter_eq_nil_of_not_covers {branches : List Branch} {type : String}
    (uncovered : ¬Covers (branches.map (resolve schema scope)) type) :
    (branches.filter fun branch => (branch.resolve schema scope).types.contains type) = [] := by
  have none := applying_eq_nil uncovered
  rwa [applying_resolve, List.map_eq_nil_iff] at none

theorem applying_mergeBy_left {type : String}
    (uncovered : ¬Covers (right.map (resolve schema scope)) type) :
    applying ((mergeBy Branch.condition Branch.absorb left right).map (resolve schema scope)) type =
      applying (left.map (resolve schema scope)) type := by
  rw [applying_mergeBy, filter_eq_nil_of_not_covers schema scope uncovered, mergeBy_nil,
    applying_resolve]

theorem applying_mergeBy_right (unique : (right.map Branch.condition).Nodup) {type : String}
    (uncovered : ¬Covers (left.map (resolve schema scope)) type) :
    applying ((mergeBy Branch.condition Branch.absorb left right).map (resolve schema scope)) type =
      applying (right.map (resolve schema scope)) type := by
  have kept : ((right.filter fun branch =>
      (branch.resolve schema scope).types.contains type).map Branch.condition).Nodup :=
    List.Nodup.sublist (List.Sublist.map _ List.filter_sublist) unique
  rw [applying_mergeBy, filter_eq_nil_of_not_covers schema scope uncovered, nil_mergeBy kept,
    applying_resolve]

theorem distinct_types_mergeBy (left right : List Branch) :
    distinct (((mergeBy Branch.condition Branch.absorb left right).map (resolve schema scope)).flatMap
      (·.types)) =
      insertAll (distinct ((left.map (resolve schema scope)).flatMap (·.types)))
        ((right.map (resolve schema scope)).flatMap (·.types)) := by
  simp only [List.flatMap_map]
  apply distinct_flatMap_mergeBy
  · exact fun _ _ => rfl
  · intro first second same
    simp only [resolve, same]

end Branch

namespace Shape

def merge (left right : Shape) : Shape :=
  ⟨mergeAll left.fields right.fields, insertAll left.spreads right.spreads,
    mergeCases left.cases right.cases, insertAll left.leaves right.leaves⟩

def ofField (head : FieldHead) (definition : FieldDefinition) (below : Shape) : Shape :=
  ⟨[Compiler.makeField head definition (isConditional head.directives) below], [], [],
    distinct below.leaves⟩

/-- Two selections single out different object types, and if one of them singles out any, it selects
    for all types what both do. -/
structure Apart (left right : Shape) : Prop where
  fieldsLeft : left.cases ≠ [] → mergeAll left.fields right.fields = left.fields
  fieldsRight : right.cases ≠ [] → mergeAll left.fields right.fields = right.fields
  conditions : ∀ first ∈ left.cases, ∀ second ∈ right.cases, first.condition ≠ second.condition
  types : ∀ first ∈ left.cases, ∀ second ∈ right.cases,
    ∀ type ∈ first.possibleTypes, type ∉ second.possibleTypes

end Shape

namespace Compiler

open ResolvedBranch

variable {c : Compiler} {stack : List String} {parent : TypeDefinition}

theorem exists_case_of_covers {s : Collection} {type : String}
    (covers : Covers (s.branches.map (Branch.resolve c.schema (c.schema.possibleTypes parent.name)))
      type) :
    ∃ typeCase ∈ (c.finish parent s).cases, type ∈ typeCase.possibleTypes ∧ typeCase.condition =
      groupOf (s.branches.map (Branch.resolve c.schema (c.schema.possibleTypes parent.name))) type :=
  ⟨_, mem_exclusive.mpr ⟨type, covers, rfl⟩, mem_groupMembers.mpr ⟨covers, rfl⟩, rfl⟩

/-- What is collected by two selections that are apart is regrouped into the cases of both. -/
theorem cases_finish_merge {left right : Collection} (kindRight : right.WellKeyed)
    (apart : (c.finish parent left).Apart (c.finish parent right)) :
    (c.finish parent (left.merge right)).cases =
      mergeCases (c.finish parent left).cases (c.finish parent right).cases := by
  have disjoint (type : String)
      (first : Covers (left.branches.map (Branch.resolve c.schema (c.schema.possibleTypes parent.name)))
        type) :
      ¬Covers (right.branches.map (Branch.resolve c.schema (c.schema.possibleTypes parent.name)))
        type := by
    intro second
    obtain ⟨one, inLeft, listed, _⟩ := exists_case_of_covers first
    obtain ⟨other, inRight, also, _⟩ := exists_case_of_covers second
    exact apart.types one inLeft other inRight type listed also
  have whole : (c.finish parent (left.merge right)).cases =
      (c.finish parent left).cases ++ (c.finish parent right).cases := by
    apply exclusive_append
    · rw [Collection.merge, Branch.distinct_types_mergeBy]
      apply insertAll_eq_append
      intro type inRight inLeft
      exact disjoint type (mem_distinct_types.mp inLeft)
        (mem_distinct_types.mp ((mem_distinct _ _).mpr inRight))
    · exact fun type covers => Branch.applying_mergeBy_left _ _ (disjoint type covers)
    · exact fun type covers => Branch.applying_mergeBy_right _ _ kindRight.conditions
        fun first => disjoint type first covers
    · intro type other first second same
      obtain ⟨one, inLeft, _, named⟩ := exists_case_of_covers first
      obtain ⟨two, inRight, _, alsoNamed⟩ := exists_case_of_covers second
      exact apart.conditions one inLeft two inRight (by rw [named, alsoNamed, same])
    · intro type covers
      obtain ⟨typeCase, member, _⟩ := exists_case_of_covers covers
      exact apart.fieldsLeft (List.ne_nil_of_mem member)
    · intro type covers
      obtain ⟨typeCase, member, _⟩ := exists_case_of_covers covers
      exact apart.fieldsRight (List.ne_nil_of_mem member)
  have unique : ((c.finish parent right).cases.map TypeCase.condition).Nodup :=
    (wellKeyed_finish kindRight).cases.conditions
  rw [whole, mergeCases_eq, mergeBy_eq_append unique]
  intro second inRight named
  obtain ⟨first, inLeft, same⟩ := List.mem_map.mp named
  exact apart.conditions first inLeft second inRight same

/-- Selections in a row are compiled if their parts are. All but the cases are merged from the
    parts, and the cases as well if the parts are apart. -/
theorem shape_append {first second : List Selection} {left right : Shape}
    (one : c.shape stack parent first = .ok left) (two : c.shape stack parent second = .ok right) :
    ∃ cases, c.shape stack parent (first ++ second) = .ok { left.merge right with cases } ∧
      Alternatives (left.merge right).fields cases ∧
      (left.Apart right → cases = (left.merge right).cases) := by
  obtain ⟨s, runFirst, rfl⟩ := shape_eq_ok_iff.mp one
  obtain ⟨t, runSecond, rfl⟩ := shape_eq_ok_iff.mp two
  have run : c.Run stack parent false (first ++ second) {} (s.merge t) :=
    run_append_empty.mpr ⟨s, t, runFirst, runSecond, rfl⟩
  refine ⟨(c.finish parent (s.merge t)).cases, shape_of_run run,
    alternatives_finish c parent (s.merge t), ?_⟩
  exact cases_finish_merge (runSecond.wellKeyed Collection.wellKeyed_empty)

theorem exists_shapes_of_append {first second : List Selection} {joined : Shape}
    (compiled : c.shape stack parent (first ++ second) = .ok joined) :
    ∃ left right, c.shape stack parent first = .ok left ∧ c.shape stack parent second = .ok right := by
  obtain ⟨s, run, rfl⟩ := shape_eq_ok_iff.mp compiled
  obtain ⟨left, right, runFirst, runSecond, rfl⟩ := run_append_empty.mp run
  exact ⟨_, _, shape_of_run runFirst, shape_of_run runSecond⟩

theorem absorb_makeField (head : FieldHead) (definition : FieldDefinition) (conditional : Bool)
    (left right : Shape) :
    (makeField head definition conditional left).absorb (makeField head definition conditional right) =
      makeField head definition conditional (left.merge right) := by
  simp [makeField, absorb, Shape.merge]

/-- The second of two fields with one response name is merged into the first. -/
theorem record_record {first second : ResponseField} (same : first.responseName = second.responseName)
    (leaves others : List String) :
    (({} : Collection).record first leaves).record second others =
      ⟨⟨[first.absorb second], []⟩, [], distinct (insertAll leaves others)⟩ := by
  have fields : second.mergeInto (first.mergeInto []) = [first.absorb second] := by
    rw [mergeInto_eq, mergeInto_eq]
    exact mergeBy_single_of_eq [] same
  have joined : insertAll (distinct leaves) others = distinct (insertAll leaves others) :=
    (insertAll_assoc ..).symm
  change (⟨⟨second.mergeInto (first.mergeInto []), []⟩, [], insertAll (distinct leaves) others⟩ :
    Collection) = _
  rw [fields, joined]

section Field

variable {head : FieldHead} {definition : FieldDefinition} {type : TypeDefinition}
  (looked : c.fieldType parent head.name = .ok (definition, type)) (hasFields : type.isComposite)

include looked hasFields

theorem run_composite_iff {conditional : Bool} {span : Span} {inner rest : List Selection}
    {s s' : Collection} :
    c.Run stack parent conditional (.field head span inner :: rest) s s' ↔
      ∃ below, c.Run stack type false inner {} below ∧ c.Run stack parent conditional rest
        (s.record (makeField head definition (conditional || isConditional head.directives)
          (c.finish type below)) below.leaves) s' := by
  constructor
  · intro run
    cases run with
    | leaf also simple after =>
      cases looked.symm.trans also
      rw [hasFields] at simple
      cases simple
    | composite also _ inside after =>
      cases looked.symm.trans also
      exact ⟨_, inside, after⟩
    | merge fragment => cases fragment
    | branch fragment => cases fragment
  · rintro ⟨below, inside, after⟩
    exact .composite looked hasFields inside after

theorem shape_field_eq_ok_iff {span : Span} {inner : List Selection} {shape : Shape} :
    c.shape stack parent [.field head span inner] = .ok shape ↔
      ∃ below, c.shape stack type inner = .ok below ∧ shape = .ofField head definition below := by
  simp only [shape_eq_ok_iff, run_composite_iff looked hasFields]
  constructor
  · rintro ⟨s, ⟨below, inside, after⟩, rfl⟩
    cases after
    exact ⟨_, ⟨below, inside, rfl⟩, rfl⟩
  · rintro ⟨_, ⟨below, inside, rfl⟩, rfl⟩
    exact ⟨_, ⟨below, inside, .nil⟩, rfl⟩

theorem shape_fields_eq_ok_iff {position : Position} {span other : Span}
    {first second : List Selection} {shape : Shape} :
    c.shape stack parent [.field head span first, .field { head with position } other second] =
        .ok shape ↔
      ∃ left right, c.shape stack type first = .ok left ∧ c.shape stack type second = .ok right ∧
        shape = .ofField head definition (left.merge right) := by
  have lookedAgain : c.fieldType parent { head with position }.name = .ok (definition, type) := looked
  have finished (left right : Collection) :
      c.finish parent ((({} : Collection).record
        (makeField head definition (isConditional head.directives) (c.finish type left))
        left.leaves).record (makeField { head with position } definition
          (isConditional head.directives) (c.finish type right)) right.leaves) =
        .ofField head definition ((c.finish type left).merge (c.finish type right)) := by
    rw [record_record (by rfl), Shape.ofField, ← absorb_makeField]
    rfl
  simp only [shape_eq_ok_iff, run_composite_iff looked hasFields,
    run_composite_iff lookedAgain hasFields]
  constructor
  · rintro ⟨s, ⟨left, inLeft, right, inRight, after⟩, rfl⟩
    cases after
    exact ⟨_, _, ⟨left, inLeft, rfl⟩, ⟨right, inRight, rfl⟩, finished left right⟩
  · rintro ⟨_, _, ⟨left, inLeft, rfl⟩, ⟨right, inRight, rfl⟩, rfl⟩
    exact ⟨_, ⟨left, inLeft, right, inRight, .nil⟩, (finished left right).symm⟩

end Field

end Compiler

-- `n` of the type `A`, selected by a query.
namespace Overlap

def head : FieldHead := ⟨.start, none, "n", [], []⟩

/-- `x ... on U { x }` -/
def otherwise : List Selection := [field "x" [], inline "U" [field "x" []]]

def otherwiseShape : Shape := ⟨[leaf "x"], [], [⟨"U", ["U"], [leaf "x"], []⟩], ["Int"]⟩

theorem otherwise_compiled : ((document otherwise).compiler schema true).shape [] interfaceA otherwise =
    .ok otherwiseShape := rfl

theorem flat_apart_otherwise : flatShape.Apart otherwiseShape := by
  constructor
  · exact fun _ => rfl
  · exact fun _ => rfl
  · simp [flatShape, otherwiseShape]
  · simp [flatShape, otherwiseShape]

end Overlap

/-- A composite field that is selected twice is compiled if it is with both selections in one. All
    of it is then the same but for the cases: those of the two selections are merged as they are,
    which gives the cases of both in one if the two are apart. -/
theorem repeated_field_compiled {c : Compiler} {parent type : TypeDefinition} {head : FieldHead}
    {definition : FieldDefinition} (looked : c.fieldType parent head.name = .ok (definition, type))
    (hasFields : type.isComposite) (stack : List String)
    (position : Position) (span other whole : Span) (first second : List Selection) :
    ((∃ repeated, c.shape stack parent
        [.field head span first, .field { head with position } other second] = .ok repeated) ↔
      ∃ joined, c.shape stack parent [.field head whole (first ++ second)] = .ok joined) ∧
    ∀ repeated joined, c.shape stack parent
        [.field head span first, .field { head with position } other second] = .ok repeated →
      c.shape stack parent [.field head whole (first ++ second)] = .ok joined →
      ∃ left right cases, c.shape stack type first = .ok left ∧ c.shape stack type second = .ok right ∧
        repeated = .ofField head definition (left.merge right) ∧
        joined = .ofField head definition { left.merge right with cases } ∧
        Alternatives (left.merge right).fields cases ∧ (left.Apart right → repeated = joined) := by
  simp only [Compiler.shape_fields_eq_ok_iff looked hasFields,
    Compiler.shape_field_eq_ok_iff looked hasFields]
  refine ⟨⟨?_, ?_⟩, ?_⟩
  · rintro ⟨_, left, right, one, two, _⟩
    obtain ⟨cases, both, _⟩ := Compiler.shape_append one two
    exact ⟨_, _, both, rfl⟩
  · rintro ⟨_, below, both, _⟩
    obtain ⟨left, right, one, two⟩ := Compiler.exists_shapes_of_append both
    exact ⟨_, left, right, one, two, rfl⟩
  · rintro repeated joined ⟨left, right, one, two, rfl⟩ ⟨below, both, rfl⟩
    obtain ⟨cases, also, alternatives, agree⟩ := Compiler.shape_append one two
    cases both.symm.trans also
    refine ⟨left, right, cases, one, two, rfl, rfl, alternatives, ?_⟩
    intro apart
    rw [agree apart]

/-- Two selections of `n` that single out `T` and `U`, and two of which one singles out `T` and only
    the other one has `x`: this is then missing for `T`. -/
theorem repeated_field_flat :
    (∃ shape, ((Overlap.document []).compiler Overlap.schema true).shape [] Overlap.query
        [Overlap.field "n" Overlap.flat, Overlap.field "n" Overlap.otherwise] = .ok shape ∧
      ((Overlap.document []).compiler Overlap.schema true).shape [] Overlap.query
        [Overlap.field "n" (Overlap.flat ++ Overlap.otherwise)] = .ok shape) ∧
    ∃ repeated joined, ((Overlap.document []).compiler Overlap.schema true).shape [] Overlap.query
        [Overlap.field "n" [Overlap.field "x" []],
          Overlap.field "n" [Overlap.inline "B" [Overlap.field "y" []]]] = .ok repeated ∧
      ((Overlap.document []).compiler Overlap.schema true).shape [] Overlap.query
        [Overlap.field "n" Overlap.flat] = .ok joined ∧ repeated ≠ joined := by
  have looked : ((Overlap.document []).compiler Overlap.schema true).fieldType Overlap.query
      Overlap.head.name = .ok (⟨"n", none, [], .named "A"⟩, Overlap.interfaceA) := rfl
  constructor
  · obtain ⟨_, agree⟩ := repeated_field_compiled looked rfl [] .start default default default
      Overlap.flat Overlap.otherwise
    obtain ⟨left, right, cases, one, two, _, _, _, same⟩ := agree _ _ rfl rfl
    cases Overlap.flat_compiled.symm.trans one
    cases Overlap.otherwise_compiled.symm.trans two
    exact ⟨_, rfl, congrArg Except.ok (same Overlap.flat_apart_otherwise).symm⟩
  · obtain ⟨_, agree⟩ := repeated_field_compiled looked rfl [] .start default default default
      [Overlap.field "x" []] [Overlap.inline "B" [Overlap.field "y" []]]
    refine ⟨_, _, rfl, rfl, ?_⟩
    intro same
    obtain ⟨left, right, cases, one, two, _, joined, alternatives, _⟩ := agree _ _ rfl rfl
    cases one
    cases two
    have kept : [⟨"B", ["T"], [Overlap.leaf "y"], []⟩] = cases :=
      (List.cons.inj (congrArg (fun shape => shape.fields.map ResponseField.cases)
        (same.trans joined))).1
    subst kept
    have complete := alternatives.complete _ List.mem_cons_self
    exact absurd (complete (a := "x") (by decide)) (by decide)

end QueryTypes
