import QueryTypes.Proofs.Collecting
import QueryTypes.Proofs.Merging

namespace QueryTypes

open ResponseField

/-- A map on lists of fields that goes through merging. -/
structure FieldsMap where
  apply : List ResponseField → List ResponseField
  apply_nil : apply [] = []
  apply_mergeAll : ∀ into fields, apply (mergeAll into fields) = mergeAll (apply into) (apply fields)

def TypeCase.mapFields (φ : FieldsMap) (typeCase : TypeCase ResponseField) : TypeCase ResponseField :=
  { typeCase with fields := φ.apply typeCase.fields }

def Collected.mapFields (φ : FieldsMap) (collected : Collected) : Collected :=
  { collected with fields := φ.apply collected.fields }

def Branch.mapFields (φ : FieldsMap) (branch : Branch) : Branch :=
  { branch with content := branch.content.mapFields φ }

def ResolvedBranch.mapFields (φ : FieldsMap) (branch : ResolvedBranch) : ResolvedBranch :=
  { branch with content := branch.content.mapFields φ }

def Collection.mapFields (φ : FieldsMap) (s : Collection) : Collection :=
  ⟨s.target.mapFields φ, s.branches.map (Branch.mapFields φ), s.leaves⟩

variable (φ : FieldsMap)

namespace ResolvedBranch

variable (base : Collected) (branches : List ResolvedBranch)

theorem applying_mapFields (type : String) :
    applying (branches.map (mapFields φ)) type = (applying branches type).map (mapFields φ) := by
  unfold applying
  rw [List.filter_map]
  rfl

theorem mostSpecific?_mapFields :
    mostSpecific? (branches.map (mapFields φ)) = (mostSpecific? branches).map (mapFields φ) := by
  unfold mostSpecific?
  rw [List.find?_map]
  congr 2
  funext candidate
  simp only [Function.comp_apply, List.all_map]
  rfl

theorem groupOf_mapFields (type : String) :
    groupOf (branches.map (mapFields φ)) type = groupOf branches type := by
  unfold groupOf
  rw [applying_mapFields, mostSpecific?_mapFields]
  cases mostSpecific? (applying branches type) <;> rfl

theorem foldl_mapFields (fields : List ResponseField) :
    (branches.map (mapFields φ)).foldl (fun fields part => mergeAll fields part.content.fields) (φ.apply fields) =
      φ.apply (branches.foldl (fun fields part => mergeAll fields part.content.fields) fields) := by
  induction branches generalizing fields with
  | nil => rfl
  | cons branch rest ih =>
    rw [List.foldl_cons, ← ih, φ.apply_mergeAll]
    rfl

theorem caseOf_mapFields (group : String) (types : List String) :
    caseOf (base.mapFields φ) (branches.map (mapFields φ)) group types =
      (caseOf base branches group types).mapFields φ := by
  cases types with
  | nil => rfl
  | cons type types =>
    have fields := foldl_mapFields φ (applying branches type) base.fields
    simp only [caseOf, applying_mapFields, Collected.mapFields, fields, List.flatMap_map]
    rfl

theorem exclusive_mapFields :
    exclusive (base.mapFields φ) (branches.map (mapFields φ)) =
      (exclusive base branches).map (TypeCase.mapFields φ) := by
  have types : (branches.map (mapFields φ)).flatMap (·.types) = branches.flatMap (·.types) := by
    rw [List.flatMap_map]
    rfl
  have groups : groupOf (branches.map (mapFields φ)) = groupOf branches := by
    funext type
    exact groupOf_mapFields φ branches type
  have members (group : String) :
      groupMembers (branches.map (mapFields φ)) group = groupMembers branches group := by
    simp only [groupMembers, types, groups]
  simp only [exclusive_eq, types, groups, members, List.map_map]
  apply List.map_congr_left
  intro group _
  exact caseOf_mapFields φ base branches group _

end ResolvedBranch

theorem Branch.exclusive_mapFields (schema : Schema) (parent : String) (base : Collected) (branches : List Branch) :
    exclusive schema parent (base.mapFields φ) (branches.map (mapFields φ)) =
      (exclusive schema parent base branches).map (TypeCase.mapFields φ) := by
  simp only [exclusive, ← ResolvedBranch.exclusive_mapFields, List.map_map]
  rfl

namespace Collection

theorem mapFields_addSpread (s : Collection) (name : String) :
    (s.addSpread name).mapFields φ = (s.mapFields φ).addSpread name := rfl

theorem mapFields_record (s : Collection) (field : ResponseField) (leaves : List String) :
    (s.record field leaves).mapFields φ =
      ⟨⟨mergeAll (φ.apply s.target.fields) (φ.apply [field]), s.target.spreads⟩, s.branches.map (Branch.mapFields φ),
        insertAll s.leaves leaves⟩ := by
  have fields : φ.apply (field.mergeInto s.target.fields) =
      mergeAll (φ.apply s.target.fields) (φ.apply [field]) := by
    rw [← φ.apply_mergeAll, mergeInto_eq, mergeAll_eq]
  simp only [mapFields, record, addField, Collected.mapFields, fields]

theorem map_mapFields_putBy (branches : List Branch) (branch : Branch) :
    (putBy Branch.condition branches branch).map (Branch.mapFields φ) =
      putBy Branch.condition (branches.map (Branch.mapFields φ)) (branch.mapFields φ) := by
  have kept : ∀ branch : Branch, (branch.mapFields φ).condition = branch.condition := fun _ => rfl
  exact map_putBy_map Branch.condition kept branches branch

theorem mapFields_enter (s : Collection) (condition : String) :
    (s.enter condition).mapFields φ = (s.mapFields φ).enter condition := by
  have branches := map_mapFields_putBy φ s.branches ⟨condition, {}⟩
  have found : (s.branches.map (Branch.mapFields φ)).find? (·.condition == condition) =
      (s.branches.find? (·.condition == condition)).map (Branch.mapFields φ) := by
    rw [List.find?_map]
    rfl
  have empty : (⟨condition, {}⟩ : Branch).mapFields φ = ⟨condition, {}⟩ := by
    simp only [Branch.mapFields, Collected.mapFields, φ.apply_nil]
  simp only [mapFields, enter, branches, found, empty]
  cases s.branches.find? (·.condition == condition) with
  | none => simp only [Collected.mapFields, Option.map_none, Option.getD_none, φ.apply_nil]
  | some branch => rfl

theorem mapFields_leave (inner s : Collection) (condition : String) :
    (inner.leave s condition).mapFields φ = (inner.mapFields φ).leave (s.mapFields φ) condition := by
  have branches := map_mapFields_putBy φ inner.branches ⟨condition, inner.target⟩
  simp only [mapFields, leave, branches]
  rfl

end Collection

end QueryTypes
