import QueryTypes.Proofs.Decoding
import QueryTypes.Proofs.Everywhere
import QueryTypes.Proofs.FieldTypes

namespace QueryTypes

open ResponseField

namespace ResponseField

variable {schema : Schema} {field : ResponseField}

def shapeNames (schema : Schema) (field : ResponseField) : List String :=
  (field.propertySets schema).map field.setName

theorem setName_shape (typeCase : TypeCase ResponseField) :
    field.setName typeCase.shape = typeCase.condition := rfl

/-- The names are those of the cases and, if there is a shape without a condition, that of the type. -/
theorem shapeNames_nodup_iff (apart : (field.cases.map TypeCase.condition).Nodup) :
    (field.shapeNames schema).Nodup ↔
      ¬((∃ set ∈ field.propertySets schema, set.condition = none) ∧
        field.type.baseName ∈ field.cases.map TypeCase.condition) := by
  unfold shapeNames
  by_cases diverges : field.cases = []
  · have none : field.propertySets schema = [] := by simp [propertySets, diverges]
    simp [none]
  · have named : (field.cases.map TypeCase.shape).map field.setName =
        field.cases.map TypeCase.condition := by
      simp [setName_shape]
    rcases propertySets_eq schema diverges with sets | ⟨sets, _⟩
    · have present : ∃ set ∈ field.propertySets schema, set.condition = none :=
        ⟨⟨none, field.fields⟩, by simp [sets], rfl⟩
      have names : (field.propertySets schema).map field.setName =
          field.cases.map TypeCase.condition ++ [field.type.baseName] := by
        rw [sets, List.map_append, named]
        rfl
      rw [names, List.nodup_append]
      constructor
      · rintro ⟨_, _, disjoint⟩ ⟨_, inCases⟩
        exact disjoint _ inCases _ (List.mem_singleton_self _) rfl
      · intro absent
        refine ⟨apart, List.nodup_cons.mpr ⟨List.not_mem_nil, List.nodup_nil⟩, ?_⟩
        intro condition inCases other isLast same
        rw [List.mem_singleton.mp isLast] at same
        exact absent ⟨present, same ▸ inCases⟩
    · have conditional : ¬∃ set ∈ field.propertySets schema, set.condition = none := by
        rintro ⟨set, listed, without⟩
        rw [sets] at listed
        obtain ⟨typeCase, _, rfl⟩ := List.mem_map.mp listed
        cases without
      have names : (field.propertySets schema).map field.setName =
          field.cases.map TypeCase.condition := by rw [sets, named]
      rw [names]
      exact ⟨fun _ both => conditional both.1, fun _ => apart⟩

end ResponseField

/-- If all branches apply to one type only, its group has the name of a branch. -/
theorem ResolvedBranch.exists_groupOf_eq {branches : List ResolvedBranch} {type : String}
    (covered : ∃ branch ∈ branches, type ∈ branch.types)
    (only : ∀ branch ∈ branches, ∀ other ∈ branch.types, other = type) :
    ∃ branch ∈ branches, groupOf branches type = branch.condition := by
  unfold groupOf
  cases found : mostSpecific? (applying branches type) with
  | some branch =>
    have member := (mostSpecific?_eq_some found).1
    exact ⟨branch, (mem_applying.mp member).1, rfl⟩
  | none =>
    obtain ⟨branch, member, applies⟩ := covered
    have absent := List.find?_eq_none.mp found branch (mem_applying.mpr ⟨member, applies⟩)
    exfalso
    apply absent
    simp only [List.all_eq_true, List.contains_iff_mem]
    intro other listed name inTypes
    rw [only branch member name inTypes]
    exact (mem_applying.mp listed).2

namespace Compiler

/-- Selections on a type open a branch for the type of this name, through fragments only. -/
inductive OpensBranch (c : Compiler) : TypeDefinition → List Selection → String → Prop
  | here {parent selections selection condition inner} (selected : selection ∈ selections)
    (fragment : c.FragmentOn parent selection condition inner)
    (opened : c.opens parent condition = true) : OpensBranch c parent selections condition.name
  | merged {parent selections selection condition inner name} (selected : selection ∈ selections)
    (fragment : c.FragmentOn parent selection condition inner)
    (applies : c.opens parent condition = false) (onward : OpensBranch c parent inner name) :
    OpensBranch c parent selections name
  | branched {parent selections selection condition inner name} (selected : selection ∈ selections)
    (fragment : c.FragmentOn parent selection condition inner)
    (opened : c.opens parent condition = true) (onward : OpensBranch c condition inner name) :
    OpensBranch c parent selections name

variable {c : Compiler} {parent : TypeDefinition} {stack : List String} {conditional : Bool}
  {selections : List Selection} {s s' : Collection} {name : String}

theorem OpensBranch.widen {part : List Selection} (opens : c.OpensBranch parent part name)
    (subset : part ⊆ selections) : c.OpensBranch parent selections name := by
  cases opens with
  | here selected fragment opened => exact .here (subset selected) fragment opened
  | merged selected fragment applies onward => exact .merged (subset selected) fragment applies onward
  | branched selected fragment opened onward => exact .branched (subset selected) fragment opened onward

theorem FragmentOn.composite_of_opens {selection : Selection} {condition : TypeDefinition}
    {inner : List Selection} (fragment : c.FragmentOn parent selection condition inner)
    (opened : c.opens parent condition = true) :
    c.schema.type? condition.name = some condition ∧ condition.isComposite = true := by
  cases fragment with
  | @inline head _ _ _ resolved =>
    cases named : head.condition with
    | none =>
      rw [inlineType, named] at resolved
      cases resolved
      simp [opens, Schema.isSupertype] at opened
    | some name =>
      rw [inlineType, named] at resolved
      obtain ⟨found, hasFields⟩ := composite_eq_ok.mp resolved
      exact ⟨by rwa [Schema.name_of_type? found], hasFields⟩
  | spread merged found resolved =>
    obtain ⟨found, hasFields⟩ := composite_eq_ok.mp resolved
    exact ⟨by rwa [Schema.name_of_type? found], hasFields⟩

theorem OpensBranch.exists_composite (opens : c.OpensBranch parent selections name) :
    ∃ type, c.schema.type? name = some type ∧ type.isComposite = true := by
  induction opens with
  | here selected fragment opened => exact ⟨_, fragment.composite_of_opens opened⟩
  | merged selected fragment applies onward ih => exact ih
  | branched selected fragment opened onward ih => exact ih

theorem opensBranch_cons (selection : Selection) (rest : List Selection) :
    c.OpensBranch parent (selection :: rest) name ↔
      c.OpensBranch parent [selection] name ∨ c.OpensBranch parent rest name := by
  constructor
  · intro opens
    cases opens with
    | here selected fragment opened =>
      rcases List.mem_cons.mp selected with rfl | selected
      · exact .inl (.here List.mem_cons_self fragment opened)
      · exact .inr (.here selected fragment opened)
    | merged selected fragment applies onward =>
      rcases List.mem_cons.mp selected with rfl | selected
      · exact .inl (.merged List.mem_cons_self fragment applies onward)
      · exact .inr (.merged selected fragment applies onward)
    | branched selected fragment opened onward =>
      rcases List.mem_cons.mp selected with rfl | selected
      · exact .inl (.branched List.mem_cons_self fragment opened onward)
      · exact .inr (.branched selected fragment opened onward)
  · rintro (opens | opens)
    · exact opens.widen (by simp)
    · exact opens.widen (by simp)

theorem not_opensBranch_of_forall (none : ∀ selection ∈ selections, ∀ condition inner,
    ¬c.FragmentOn parent selection condition inner) : ¬c.OpensBranch parent selections name := by
  intro opens
  cases opens with
  | here selected fragment => exact none _ selected _ _ fragment
  | merged selected fragment => exact none _ selected _ _ fragment
  | branched selected fragment => exact none _ selected _ _ fragment

theorem not_opensBranch_field (head : FieldHead) (span : Span) (inner : List Selection) :
    ¬c.OpensBranch parent [.field head span inner] name := by
  apply not_opensBranch_of_forall
  intro selection selected condition inside fragment
  rw [List.mem_singleton.mp selected] at fragment
  cases fragment

theorem not_opensBranch_spread (unmerged : c.mergeSpreads = false) (spread : FragmentSpread) :
    ¬c.OpensBranch parent [.spread spread] name := by
  apply not_opensBranch_of_forall
  intro selection selected condition inside fragment
  rw [List.mem_singleton.mp selected] at fragment
  cases fragment with
  | spread merged =>
    rw [unmerged] at merged
    cases merged

theorem opensBranch_fragmentOn {selection : Selection} {condition : TypeDefinition}
    {inner : List Selection} (fragment : c.FragmentOn parent selection condition inner) :
    c.OpensBranch parent [selection] name ↔
      c.opens parent condition = true ∧ name = condition.name ∨
        c.OpensBranch (c.insideOf parent condition) inner name := by
  unfold insideOf
  constructor
  · intro opens
    cases opens with
    | here selected other opened =>
      rw [List.mem_singleton.mp selected] at other
      obtain ⟨rfl, rfl⟩ := fragment.unique other
      exact .inl ⟨opened, rfl⟩
    | merged selected other applies onward =>
      rw [List.mem_singleton.mp selected] at other
      obtain ⟨rfl, rfl⟩ := fragment.unique other
      exact .inr (by simpa [applies] using onward)
    | branched selected other opened onward =>
      rw [List.mem_singleton.mp selected] at other
      obtain ⟨rfl, rfl⟩ := fragment.unique other
      exact .inr (by simpa [opened] using onward)
  · rintro (⟨opened, rfl⟩ | onward)
    · exact .here List.mem_cons_self fragment opened
    · cases opened : c.opens parent condition with
      | false => exact .merged List.mem_cons_self fragment opened (by simpa [opened] using onward)
      | true => exact .branched List.mem_cons_self fragment opened (by simpa [opened] using onward)

/-- The branches after a run are those before and those that the selections open. -/
theorem Run.mem_conditions_iff (run : c.Run stack parent conditional selections s s') (name : String) :
    name ∈ s'.branches.map Branch.condition ↔
      name ∈ s.branches.map Branch.condition ∨ c.OpensBranch parent selections name := by
  induction run with
  | nil => simp [not_opensBranch_of_forall]
  | leaf looked simple after ih =>
    rw [ih, opensBranch_cons, or_iff_right (not_opensBranch_field _ _ _)]
    rfl
  | composite looked hasFields inside after _ ih =>
    rw [ih, opensBranch_cons, or_iff_right (not_opensBranch_field _ _ _)]
    rfl
  | merge fragment fresh applies inside after below ih =>
    rw [ih, below, opensBranch_cons, opensBranch_fragmentOn fragment, Collection.branches_note, insideOf]
    simp [applies, or_assoc]
  | branch fragment fresh opened inside after below ih =>
    rw [ih, opensBranch_cons, opensBranch_fragmentOn fragment, insideOf, if_pos opened]
    simp only [Collection.leave, map_putBy, mem_insertNew, below, Collection.enter,
      Collection.branches_note, opened, true_and]
    grind
  | mention unmerged after ih =>
    rw [ih, opensBranch_cons, or_iff_right (not_opensBranch_spread unmerged _)]
    rfl

theorem Run.mem_conditions_empty_iff (run : c.Run stack parent conditional selections {} s) (name : String) :
    name ∈ s.branches.map Branch.condition ↔ c.OpensBranch parent selections name := by
  rw [run.mem_conditions_iff]
  exact or_iff_right List.not_mem_nil

theorem Run.opensBranch_of_mem (run : c.Run stack parent conditional selections {} s) {branch : Branch}
    (member : branch ∈ s.branches) : c.OpensBranch parent selections branch.condition :=
  (run.mem_conditions_empty_iff _).mp (List.mem_map_of_mem member)

section Case

variable {typeCase : TypeCase ResponseField} (distinct : c.schema.Distinct)
  (members : c.schema.UnionsOfObjects) (run : c.Run stack parent conditional selections {} s)
  (member : typeCase ∈ (c.finish parent s).cases)

include distinct members run member

theorem Run.exists_composite_of_case :
    ∃ type, c.schema.type? typeCase.condition = some type ∧ type.isComposite = true := by
  obtain ⟨first, _, ⟨resolved, inResolved, applies⟩, named, _⟩ := ResolvedBranch.exists_first member
  rw [named]
  rcases ResolvedBranch.groupOf_cases _ first with ⟨other, inOther, _, same, _⟩ | alone
  · obtain ⟨branch, inBranches, rfl⟩ := List.mem_map.mp inOther
    rw [same]
    exact (run.opensBranch_of_mem inBranches).exists_composite
  · obtain ⟨branch, _, rfl⟩ := List.mem_map.mp inResolved
    have possible := ((Branch.mem_types_resolve ..).mp applies).1
    obtain ⟨type, found, isObject⟩ := distinct.object_of_possible members possible
    rw [alone]
    exact ⟨type, found, TypeDefinition.isComposite_of_isObject isObject⟩

/-- A case has the name of the type that is selected on only if a branch for this type is opened. -/
theorem Run.opensBranch_of_case (own : typeCase.condition = parent.name) :
    c.OpensBranch parent selections parent.name := by
  obtain ⟨first, _, covered, named, _⟩ := ResolvedBranch.exists_first member
  have grouped : ∃ resolved ∈ s.branches.map (Branch.resolve c.schema (c.schema.possibleTypes parent.name)),
      resolved.condition = parent.name := by
    rcases ResolvedBranch.groupOf_cases _ first with ⟨resolved, inResolved, _, same, _⟩ | alone
    · exact ⟨resolved, inResolved, by rw [← same, ← named, own]⟩
    · -- the case is of one object type, which is the type that is selected on
      have itself : first = parent.name := by rw [← alone, ← named, own]
      obtain ⟨resolved, inResolved, applies⟩ := covered
      obtain ⟨branch, inBranches, rfl⟩ := List.mem_map.mp inResolved
      have possible := ((Branch.mem_types_resolve ..).mp applies).1
      obtain ⟨type, found, isObject⟩ := distinct.object_of_possible members possible
      have only : c.schema.possibleTypes parent.name = [first] := by
        rw [itself] at found ⊢
        exact Schema.possibleTypes_of_isObject found isObject
      obtain ⟨other, inOther, same⟩ := ResolvedBranch.exists_groupOf_eq
        ⟨_, List.mem_map_of_mem inBranches, applies⟩ (by
          intro resolved listed name inTypes
          obtain ⟨branch, _, rfl⟩ := List.mem_map.mp listed
          have inScope := ((Branch.mem_types_resolve ..).mp inTypes).2
          rw [only] at inScope
          exact List.mem_singleton.mp inScope)
      exact ⟨other, inOther, by rw [← same, ← named, own]⟩
  obtain ⟨resolved, inResolved, same⟩ := grouped
  obtain ⟨branch, inBranches, rfl⟩ := List.mem_map.mp inResolved
  have opens := run.opensBranch_of_mem inBranches
  rwa [show branch.condition = parent.name from same] at opens

end Case

theorem Blend.exists_source {sources : TypeDefinition → List Selection → Prop}
    {fields : List ResponseField} {cases : List (TypeCase ResponseField)}
    (blend : c.Blend sources fields cases) :
    ∀ typeCase ∈ cases, ∃ type inner stack below, sources type inner ∧
      c.Run stack type false inner {} below ∧
      ∃ own ∈ (c.finish type below).cases, own.condition = typeCase.condition := by
  induction blend with
  | empty => exact nofun
  | source listed inside =>
    exact fun typeCase member => ⟨_, _, _, _, listed, inside, typeCase, member, rfl⟩
  | merge _ _ left right =>
    rw [mergeCases_eq]
    apply forall_mem_mergeBy left right
    intro typeCase _ existing _ found
    rwa [TypeCase.condition_absorb]

/-- No case is named after the type of its field, if selections meet only with such on the same type
    and none opens a branch for its own type. -/
theorem Sourced.baseName_not_mem {root : TypeDefinition} {start : List Selection}
    (distinct : c.schema.Distinct) (members : c.schema.UnionsOfObjects)
    (plain : ∀ parent selections other others, c.Meets root start parent selections other others →
      parent = other ∧ ¬c.OpensBranch parent selections parent.name)
    {field : ResponseField} (sourced : c.Sourced root start field) :
    field.type.baseName ∉ field.cases.map TypeCase.condition := by
  obtain ⟨sources, meeting, node⟩ := sourced
  intro named
  obtain ⟨typeCase, member, same⟩ := List.mem_map.mp named
  obtain ⟨type, inner, stack, below, listed, inside, own, inCases, condition⟩ :=
    node.blend.exists_source typeCase member
  obtain ⟨base, found, hasFields⟩ := inside.exists_composite_of_case distinct members inCases
  rw [condition, same] at found
  obtain ⟨others, alsoListed⟩ := node.typed base found hasFields
  obtain ⟨rfl, closed⟩ := plain _ _ _ _ (meeting type inner base others listed alsoListed)
  have name := Schema.name_of_type? found
  apply closed
  apply inside.opensBranch_of_case distinct members inCases
  rw [condition, same, name]

end Compiler

namespace Overlap

/-- `n { x ... on B { ... on A { x } } }` -/
def inverted : List Selection :=
  [field "n" [field "x" [], inline "B" [inline "A" [field "x" []]]]]

def invertedField : ResponseField :=
  ⟨"n", "n", .named "A", none, false, [leaf "x"], [],
    [⟨"B", ["T"], [leaf "x"], []⟩, ⟨"A", ["U"], [leaf "x"], []⟩]⟩

theorem inverted_run : compiler.Run [] query false inverted {} ⟨⟨[invertedField], []⟩, [], ["Int"]⟩ :=
  Compiler.collectAll_eq_ok_iff.mp rfl

theorem not_opensBranch_repeated {name : String} : ¬compiler.OpensBranch query repeated name := by
  apply Compiler.not_opensBranch_of_forall
  intro selection selected condition inner fragment
  simp only [repeated, List.mem_cons, List.not_mem_nil, or_self, or_false] at selected
  subst selected
  cases fragment

theorem opensBranch_flat {name : String} (opens : compiler.OpensBranch interfaceA flat name) :
    name = "B" := by
  rw [flat, Compiler.opensBranch_cons] at opens
  rcases opens with opens | opens
  · exact absurd opens (Compiler.not_opensBranch_field _ _ _)
  · rcases (Compiler.opensBranch_fragmentOn (.inline rfl)).mp opens with ⟨_, rfl⟩ | onward
    · rfl
    · exact absurd onward (Compiler.not_opensBranch_field _ _ _)

end Overlap

/-- In a compiled document the names of the shapes of a field are distinct exactly if not both a case
    and the shape without a condition are named after the type of the field. They are always distinct if
    selections meet only with such on the same type and none opens a branch for its own type. -/
theorem compiled_shapeNames_nodup {items : List SchemaItem} {schema : Schema}
    (built : Schema.ofItems items = .ok schema) (members : schema.UnionsOfObjects)
    {options : Options} {document : Document} {compiled : Compiled}
    (done : document.compile schema options = .ok compiled) {field : ResponseField}
    (has : compiled.Has field) :
    ((field.shapeNames schema).Nodup ↔
      ¬((∃ set ∈ field.propertySets schema, set.condition = none) ∧
        field.type.baseName ∈ field.cases.map TypeCase.condition)) ∧
    ((∀ root start, document.Starts schema root start → ∀ parent selections other others,
      (document.compiler schema options.mergeSpreads).Meets root start parent selections other others →
      parent = other ∧
        ¬(document.compiler schema options.mergeSpreads).OpensBranch parent selections parent.name) →
      (field.shapeNames schema).Nodup) := by
  have conditions := (wellKeyed_iff.mp (has.wellKeyed done)).2.2.conditions
  refine ⟨shapeNames_nodup_iff conditions, ?_⟩
  intro plain
  have distinct := Schema.distinct_of_ofItems built
  have sourced : ∃ root start, document.Starts schema root start ∧
      (document.compiler schema options.mergeSpreads).Sourced root start field := by
    rcases has with ⟨operation, member, within⟩ | ⟨fragment, member, within⟩
    · obtain ⟨root, start, starts, sourced⟩ := Document.sourced_of_operation done member
      refine ⟨root, start, starts, ?_⟩
      exact Compiler.sourced_of_within distinct members (starts.known built)
        (fun _ _ _ _ meets => (plain root start starts _ _ _ _ meets).1) within sourced
    · obtain ⟨root, start, starts, sourced⟩ := Document.sourced_of_fragment done member
      refine ⟨root, start, starts, ?_⟩
      exact Compiler.sourced_of_within distinct members (starts.known built)
        (fun _ _ _ _ meets => (plain root start starts _ _ _ _ meets).1) within (by simpa using sourced)
  obtain ⟨root, start, starts, sourced⟩ := sourced
  rw [shapeNames_nodup_iff conditions]
  rintro ⟨_, named⟩
  exact sourced.baseName_not_mem distinct members (plain root start starts) named

/-- The names of the shapes of `n` are distinct in the query `n { x ... on B { y } } n { x ... on B { y } }`.
    In the valid query `n { x ... on B { ... on A { x } } }` two shapes are called `A`. -/
theorem compiled_shapeNames_repeated :
    (∃ compiled, (Document.ofQuery Overlap.repeated).compile Overlap.schema {} = .ok compiled ∧
      compiled.Has Overlap.repeatedField ∧
      Overlap.repeatedField.shapeNames Overlap.schema = ["B", "A"] ∧ ["B", "A"].Nodup) ∧
    (Document.ofQuery Overlap.inverted).validate Overlap.schema false = .ok () ∧
    ∃ compiled, (Document.ofQuery Overlap.inverted).compile Overlap.schema {} = .ok compiled ∧
      compiled.Has Overlap.invertedField ∧
      Overlap.invertedField.shapeNames Overlap.schema = ["B", "A", "A"] := by
  constructor
  · obtain ⟨compiled, operation, done, member, fields⟩ :=
      Document.compile_ofQuery rfl Overlap.repeated_run rfl rfl
    have has : compiled.Has Overlap.repeatedField := by
      refine .inl ⟨operation, member, .here ?_⟩
      rw [fields]
      exact List.mem_singleton_self _
    refine ⟨compiled, done, has, rfl, ?_⟩
    refine (compiled_shapeNames_nodup Overlap.built Overlap.unionsOfObjects done has).2 ?_
    intro root start starts parent selections other others meets
    obtain ⟨rfl, rfl⟩ := Document.starts_ofQuery rfl starts
    rcases Overlap.meets_repeated_cases meets with ⟨rfl, rfl, rfl, rfl⟩ | ⟨rfl, rfl, rfl, rfl⟩
    · exact ⟨rfl, Overlap.not_opensBranch_repeated⟩
    · exact ⟨rfl, fun opens => absurd (Overlap.opensBranch_flat opens) (by decide)⟩
  · obtain ⟨compiled, operation, done, member, fields⟩ :=
      Document.compile_ofQuery rfl Overlap.inverted_run rfl rfl
    refine ⟨rfl, compiled, done, .inl ⟨operation, member, .here ?_⟩, rfl⟩
    rw [fields]
    exact List.mem_singleton_self _

end QueryTypes
