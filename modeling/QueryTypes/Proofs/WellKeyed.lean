import QueryTypes.Proofs.Crossings
import QueryTypes.Proofs.Merging

namespace QueryTypes

open ResponseField

structure Collected.WellKeyed (collected : Collected) : Prop where
  fields : FieldsWellKeyed collected.fields
  spreads : collected.spreads.Nodup

structure Collection.WellKeyed (s : Collection) : Prop where
  target : s.target.WellKeyed
  conditions : (s.branches.map Branch.condition).Nodup
  contents : ∀ branch ∈ s.branches, branch.content.WellKeyed

structure Shape.WellKeyed (shape : Shape) : Prop where
  fields : FieldsWellKeyed shape.fields
  spreads : shape.spreads.Nodup
  cases : CasesWellKeyed shape.cases

theorem Collected.wellKeyed_empty : ({} : Collected).WellKeyed :=
  ⟨⟨List.nodup_nil, nofun⟩, List.nodup_nil⟩

theorem Collection.wellKeyed_empty : ({} : Collection).WellKeyed :=
  ⟨Collected.wellKeyed_empty, List.nodup_nil, nofun⟩

theorem ResponseField.FieldsWellKeyed.single {field : ResponseField} (kind : field.WellKeyed) :
    FieldsWellKeyed [field] :=
  ⟨List.nodup_cons.mpr ⟨List.not_mem_nil, List.nodup_nil⟩, by simpa using kind⟩

namespace ResolvedBranch

variable {branches : List ResolvedBranch} {base : Collected}

theorem wellKeyed_foldl {parts : List ResolvedBranch} {fields : List ResponseField}
    (start : FieldsWellKeyed fields) (each : ∀ part ∈ parts, FieldsWellKeyed part.content.fields) :
    FieldsWellKeyed (parts.foldl (fun fields part => mergeAll fields part.content.fields) fields) := by
  induction parts generalizing fields with
  | nil => exact start
  | cons part rest ih =>
    rw [List.forall_mem_cons] at each
    exact ih (start.merge each.1) each.2

theorem wellKeyed_exclusive (kind : base.WellKeyed)
    (each : ∀ branch ∈ branches, branch.content.WellKeyed) :
    CasesWellKeyed (exclusive base branches) := by
  constructor
  · have names : (exclusive base branches).map TypeCase.condition =
        distinct ((distinct (branches.flatMap (·.types))).map (groupOf branches)) := by
      rw [exclusive_eq, List.map_map]
      exact List.map_id _
    rw [names]
    exact nodup_distinct _
  · intro typeCase member
    obtain ⟨type, _, rfl⟩ := mem_exclusive.mp member
    constructor
    · apply wellKeyed_foldl kind.fields
      intro part applies
      split at applies
      · cases applies
      · exact (each part (mem_applying.mp applies).1).fields
    · exact nodup_distinct _

end ResolvedBranch

namespace Collection

variable {s inner : Collection}

theorem WellKeyed.record (kind : s.WellKeyed) {field : ResponseField} (single : field.WellKeyed)
    (leaves : List String) : (s.record field leaves).WellKeyed := by
  refine ⟨⟨?_, kind.target.spreads⟩, kind.conditions, kind.contents⟩
  have merged : field.mergeInto s.target.fields = mergeAll s.target.fields [field] := by
    rw [mergeInto_eq, mergeAll_eq]
  change FieldsWellKeyed (field.mergeInto s.target.fields)
  rw [merged]
  exact kind.target.fields.merge (.single single)

theorem WellKeyed.note (kind : s.WellKeyed) (selection : Selection) :
    (s.note selection).WellKeyed := by
  unfold Collection.note
  split
  · exact ⟨⟨kind.target.fields, nodup_insertNew _ _ kind.target.spreads⟩, kind.conditions, kind.contents⟩
  · exact kind

theorem WellKeyed.contentAt (kind : s.WellKeyed) (condition : String) :
    (contentAt s.branches condition).WellKeyed := by
  unfold Collection.contentAt
  cases found : s.branches.find? (·.condition == condition) with
  | none => exact Collected.wellKeyed_empty
  | some branch => exact kind.contents branch (List.mem_of_find?_eq_some found)

theorem WellKeyed.fieldsAt_branch (kind : s.WellKeyed) {branch : Branch}
    (member : branch ∈ s.branches) : s.fieldsAt (some branch.condition) = branch.content.fields := by
  simp only [fieldsAt, Collection.contentAt]
  rw [find?_key_of_mem Branch.condition kind.conditions member]
  rfl

theorem nodup_putBy {branches : List Branch} (unique : (branches.map Branch.condition).Nodup)
    (branch : Branch) : ((putBy Branch.condition branches branch).map Branch.condition).Nodup := by
  rw [map_putBy]
  exact nodup_insertNew _ _ unique

theorem WellKeyed.enter (kind : s.WellKeyed) (condition : String) : (s.enter condition).WellKeyed := by
  refine ⟨kind.contentAt condition, nodup_putBy kind.conditions _, ?_⟩
  intro branch member
  rcases mem_of_mem_putBy _ member with rfl | member
  · exact Collected.wellKeyed_empty
  · exact kind.contents branch member

theorem WellKeyed.leave (kind : s.WellKeyed) (filled : inner.WellKeyed) (condition : String) :
    (inner.leave s condition).WellKeyed := by
  refine ⟨kind.target, nodup_putBy filled.conditions _, ?_⟩
  intro branch member
  rcases mem_of_mem_putBy _ member with rfl | member
  · exact filled.target
  · exact filled.contents branch member

end Collection

namespace Compiler

variable {c : Compiler} {parent : TypeDefinition}

theorem wellKeyed_finish {s : Collection} (kind : s.WellKeyed) : (c.finish parent s).WellKeyed := by
  refine ⟨kind.target.fields, kind.target.spreads, ?_⟩
  apply ResolvedBranch.wellKeyed_exclusive kind.target
  intro resolved member
  obtain ⟨branch, inBranches, rfl⟩ := List.mem_map.mp member
  exact kind.contents branch inBranches

theorem wellKeyed_makeField {shape : Shape} (kind : shape.WellKeyed) (head : FieldHead)
    (definition : FieldDefinition) (conditional : Bool) :
    (makeField head definition conditional shape).WellKeyed :=
  wellKeyed_iff.mpr ⟨kind.fields, kind.spreads, kind.cases⟩

theorem wellKeyed_leaf (head : FieldHead) (definition : FieldDefinition) (conditional : Bool)
    (leaves : List String) : (makeField head definition conditional ⟨[], [], [], leaves⟩).WellKeyed := by
  have kind : Shape.WellKeyed ⟨[], [], [], leaves⟩ :=
    ⟨⟨List.nodup_nil, nofun⟩, List.nodup_nil, List.nodup_nil, nofun⟩
  exact wellKeyed_makeField kind ..

/-- Names stay unique at every depth while selections are collected. -/
theorem Run.wellKeyed {stack : List String} {conditional : Bool} {selections : List Selection}
    {s s' : Collection} (run : c.Run stack parent conditional selections s s') (kind : s.WellKeyed) :
    s'.WellKeyed := by
  induction run with
  | nil => exact kind
  | leaf looked simple after ih => exact ih (kind.record (wellKeyed_leaf ..) _)
  | composite looked hasFields inside after below ih =>
    have filled := below Collection.wellKeyed_empty
    exact ih (kind.record (wellKeyed_makeField (wellKeyed_finish filled) ..) _)
  | merge fragment fresh applies inside after below ih => exact ih (below (kind.note _))
  | @branch _ _ _ selection _ _ _ _ _ _ fragment fresh opened inside after below ih =>
    have noted := kind.note selection
    exact ih (noted.leave (below (noted.enter _)) _)
  | mention unmerged after ih =>
    exact ih ⟨⟨kind.target.fields, nodup_insertNew _ _ kind.target.spreads⟩, kind.conditions,
      kind.contents⟩

theorem wellKeyed_of_shape {stack : List String} {selections : List Selection} {shape : Shape}
    (compiled : c.shape stack parent selections = .ok shape) : shape.WellKeyed := by
  obtain ⟨s, run, rfl⟩ := shape_eq_ok_iff.mp compiled
  exact wellKeyed_finish (run.wellKeyed Collection.wellKeyed_empty)

end Compiler

end QueryTypes
