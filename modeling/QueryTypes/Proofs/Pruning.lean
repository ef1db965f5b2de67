import QueryTypes.Proofs.MappedFields

namespace QueryTypes

namespace ResponseField

mutual
/-- The field without all fields below it that have the key of a discriminator. -/
def prune : ResponseField → ResponseField
  | ⟨responseName, fieldName, type, description, isConditional, fields, spreads, cases⟩ =>
    ⟨responseName, fieldName, type, description, isConditional, pruneAll fields, spreads,
      pruneCases cases⟩
termination_by structural field => field

def pruneAll : List ResponseField → List ResponseField
  | [] => []
  | field :: rest =>
    if field.responseName = typenameField then pruneAll rest else prune field :: pruneAll rest
termination_by structural fields => fields

def pruneCase : TypeCase ResponseField → TypeCase ResponseField
  | ⟨condition, possibleTypes, fields, spreads⟩ =>
    ⟨condition, possibleTypes, pruneAll fields, spreads⟩
termination_by structural typeCase => typeCase

def pruneCases : List (TypeCase ResponseField) → List (TypeCase ResponseField)
  | [] => []
  | typeCase :: rest => pruneCase typeCase :: pruneCases rest
termination_by structural cases => cases
end

theorem prune_eq (field : ResponseField) :
    field.prune = { field with fields := pruneAll field.fields, cases := pruneCases field.cases } := by
  cases field
  rw [prune]

theorem pruneCase_eq (typeCase : TypeCase ResponseField) :
    pruneCase typeCase = { typeCase with fields := pruneAll typeCase.fields } := by
  cases typeCase
  rw [pruneCase]

theorem pruneAll_eq (fields : List ResponseField) :
    pruneAll fields = (fields.filter (·.responseName ≠ typenameField)).map prune := by
  induction fields with
  | nil => rw [pruneAll]; rfl
  | cons field rest ih =>
    rw [pruneAll, ih]
    by_cases named : field.responseName = typenameField <;> simp [named]

theorem pruneCases_eq (cases : List (TypeCase ResponseField)) :
    pruneCases cases = cases.map pruneCase := by
  induction cases with
  | nil => rw [pruneCases]; rfl
  | cons typeCase rest ih => rw [pruneCases, ih]; rfl

@[simp] theorem responseName_prune (field : ResponseField) :
    field.prune.responseName = field.responseName := by
  rw [prune_eq]

@[simp] theorem condition_pruneCase (typeCase : TypeCase ResponseField) :
    (pruneCase typeCase).condition = typeCase.condition := by
  rw [pruneCase_eq]

theorem pruneAll_mergeAll_of {into fields : List ResponseField}
    (absorbed : ∀ y ∈ fields, ∀ x : ResponseField, (x.absorb y).prune = x.prune.absorb y.prune) :
    pruneAll (mergeAll into fields) = mergeAll (pruneAll into) (pruneAll fields) := by
  have chosen : (mergeAll into fields).filter (·.responseName ≠ typenameField) =
      mergeBy responseName absorb (into.filter (·.responseName ≠ typenameField))
        (fields.filter (·.responseName ≠ typenameField)) := by
    rw [mergeAll_eq]
    apply filter_mergeBy
    · intro x y
      rw [responseName_absorb]
    · intro x y same
      rw [same]
  rw [pruneAll_eq, chosen, mergeAll_eq, pruneAll_eq, pruneAll_eq]
  apply map_mergeBy_map responseName_prune
  intro y member
  exact absorbed y (List.mem_filter.mp member).1

theorem prune_absorb (existing field : ResponseField) :
    (existing.absorb field).prune = existing.prune.absorb field.prune := by
  induction field using induction_below generalizing existing with
  | step field below belowCases =>
    have fields : pruneAll (mergeAll existing.fields field.fields) =
        mergeAll (pruneAll existing.fields) (pruneAll field.fields) :=
      pruneAll_mergeAll_of fun y member x => below y member x
    have cases : pruneCases (mergeCases existing.cases field.cases) =
        mergeCases (pruneCases existing.cases) (pruneCases field.cases) := by
      simp only [pruneCases_eq, mergeCases_eq]
      apply map_mergeBy_map condition_pruneCase
      intro typeCase listed other
      have inCase : pruneAll (mergeAll other.fields typeCase.fields) =
          mergeAll (pruneAll other.fields) (pruneAll typeCase.fields) :=
        pruneAll_mergeAll_of fun y member x => belowCases typeCase listed y member x
      simp only [pruneCase_eq, TypeCase.absorb, inCase]
    simp only [prune_eq, absorb, fields, cases]

theorem pruneAll_mergeAll (into fields : List ResponseField) :
    pruneAll (mergeAll into fields) = mergeAll (pruneAll into) (pruneAll fields) :=
  pruneAll_mergeAll_of fun y _ x => prune_absorb x y

end ResponseField

open ResponseField

def Collected.prune (collected : Collected) : Collected :=
  { collected with fields := pruneAll collected.fields }

def Branch.prune (branch : Branch) : Branch := { branch with content := branch.content.prune }

/-- What was collected, without discriminators and without the type that their values have. -/
def Collection.prune (s : Collection) : Collection :=
  ⟨s.target.prune, s.branches.map Branch.prune, s.leaves.filter (· ≠ "String")⟩

def Shape.prune (shape : Shape) : Shape :=
  ⟨pruneAll shape.fields, shape.spreads, pruneCases shape.cases, shape.leaves.filter (· ≠ "String")⟩

def pruning : FieldsMap := ⟨pruneAll, rfl, pruneAll_mergeAll⟩

namespace Collection

variable {s t : Collection}

/-- Pruning maps the fields, and leaves a type out of the leaves. -/
theorem prune_eq (s : Collection) :
    s.prune = { s.mapFields pruning with leaves := s.leaves.filter (· ≠ "String") } := rfl

theorem prune_record (s : Collection) (field : ResponseField) (leaves : List String) :
    (s.record field leaves).prune =
      ⟨⟨mergeAll s.prune.target.fields (pruneAll [field]), s.prune.target.spreads⟩, s.prune.branches,
        insertAll s.prune.leaves (leaves.filter (· ≠ "String"))⟩ := by
  have rest : (s.record field leaves).leaves.filter (· ≠ "String") =
      insertAll (s.leaves.filter (· ≠ "String")) (leaves.filter (· ≠ "String")) :=
    filter_insertAll (· ≠ "String") s.leaves leaves
  rw [prune_eq, mapFields_record, rest]
  rfl

/-- Two collections stay alike when they record fields that are alike. -/
theorem prune_record_congr (same : s.prune = t.prune) {field other : ResponseField}
    {leaves types : List String} (fields : field.prune = other.prune)
    (below : leaves.filter (· ≠ "String") = types.filter (· ≠ "String")) :
    (s.record field leaves).prune = (t.record other types).prune := by
  have named : field.responseName = other.responseName := by
    rw [← responseName_prune field, fields, responseName_prune]
  have single : pruneAll [field] = pruneAll [other] := by
    simp only [pruneAll, fields, named]
  rw [prune_record, prune_record, same, single, below]

theorem prune_record_typename {field : ResponseField} (named : field.responseName = typenameField) :
    (s.record field ["String"]).prune = s.prune := by
  have absent : pruneAll [field] = [] := by
    simp only [pruneAll, named, ↓reduceIte]
  rw [prune_record, absent, mergeAll_nil]
  rfl

theorem prune_addSpread (s : Collection) (name : String) :
    (s.addSpread name).prune = s.prune.addSpread name := rfl

theorem prune_enter (s : Collection) (condition : String) :
    (s.enter condition).prune = s.prune.enter condition := by
  rw [prune_eq, mapFields_enter]
  rfl

theorem prune_leave (inner s : Collection) (condition : String) :
    (inner.leave s condition).prune = inner.prune.leave s.prune condition := by
  rw [prune_eq, mapFields_leave]
  rfl

end Collection

namespace Compiler

theorem prune_finish (c : Compiler) (parent : TypeDefinition) (s : Collection) :
    (c.finish parent s).prune = c.finish parent s.prune := by
  have cases : pruneCases (Branch.exclusive c.schema parent.name s.target s.branches) =
      Branch.exclusive c.schema parent.name s.target.prune (s.branches.map Branch.prune) := by
    have each : pruneCase = TypeCase.mapFields pruning := funext pruneCase_eq
    rw [pruneCases_eq, each]
    exact (Branch.exclusive_mapFields pruning c.schema parent.name s.target s.branches).symm
  simp only [Shape.prune, finish, cases]
  rfl

theorem prune_makeField (head : FieldHead) (definition : FieldDefinition) (conditional : Bool)
    (shape : Shape) :
    (makeField head definition conditional shape).prune =
      makeField head definition conditional shape.prune := by
  rw [prune_eq]
  rfl

end Compiler

end QueryTypes
