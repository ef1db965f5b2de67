import QueryTypes.Synthesis

namespace QueryTypes

def TypeDefinition.hasParts (type : TypeDefinition) : Bool :=
  type.body matches .object .. | .interface _ | .input _

theorem TypeDefinition.isLeaf_of_hasParts {type : TypeDefinition} (hasParts : type.hasParts = true) :
    type.isLeaf = false := by
  unfold TypeDefinition.hasParts at hasParts
  unfold isLeaf
  split at hasParts <;> simp_all

namespace Schema

def orTypename (trees : List FieldTree) : List FieldTree := if trees.isEmpty then [.typename] else trees

section Expand

variable {schema : Schema} {path : List String} {name : String} {type : TypeDefinition}

theorem expand_of_leaf (simple : ∀ type, schema.type? name = some type → type.isLeaf = true) :
    schema.expand path name = [] := by
  unfold expand
  split
  · rfl
  · rename_i type found
    have leaf := simple type found
    unfold TypeDefinition.isLeaf at leaf
    split <;> simp_all

theorem expand_of_union (found : schema.type? name = some type) {members : List String}
    (body : type.body = .union members) : schema.expand path name = [.typename] := by
  unfold expand
  split <;> simp_all

theorem expand_of_mem (found : schema.type? name = some type) (hasParts : type.hasParts = true)
    (seen : type.name ∈ path) : schema.expand path name = [.typename] := by
  unfold TypeDefinition.hasParts at hasParts
  unfold expand
  split
  · simp_all
  · split <;> simp_all

theorem expand_of_notMem (found : schema.type? name = some type) (hasParts : type.hasParts = true)
    (fresh : type.name ∉ path) :
    schema.expand path name = orTypename ((expandable type).map fun entry =>
      .node entry.1 (schema.expand (type.name :: path) entry.2)) := by
  unfold TypeDefinition.hasParts at hasParts
  rw [expand]
  split
  · simp_all
  · split <;> simp_all [orTypename]

/-- Every name stands for a leaf or nothing, for a union, or for a type that has parts. -/
theorem leaf_or_union_or_hasParts (schema : Schema) (name : String) :
    (∀ type, schema.type? name = some type → type.isLeaf = true) ∨
      (∃ type members, schema.type? name = some type ∧ type.body = .union members) ∨
        ∃ type, schema.type? name = some type ∧ type.hasParts = true := by
  cases found : schema.type? name with
  | none => exact .inl (by simp)
  | some type =>
    cases body : type.body with
    | scalar => exact .inl (by simp [TypeDefinition.isLeaf, body])
    | «enum» => exact .inl (by simp [TypeDefinition.isLeaf, body])
    | union members => exact .inr (.inl ⟨type, members, rfl, body⟩)
    | object => exact .inr (.inr ⟨type, rfl, by simp [TypeDefinition.hasParts, body]⟩)
    | interface => exact .inr (.inr ⟨type, rfl, by simp [TypeDefinition.hasParts, body]⟩)
    | input => exact .inr (.inr ⟨type, rfl, by simp [TypeDefinition.hasParts, body]⟩)

/-- Induction on the path: types that are not on it get fewer. -/
theorem path_induction (schema : Schema) {motive : List String → Prop}
    (step : ∀ path, (∀ name type, schema.type? name = some type → type.name ∉ path →
      motive (type.name :: path)) → motive path) (path : List String) : motive path := by
  induction size : schema.offPath path using Nat.strongRecOn generalizing path with
  | ind size ih =>
    apply step
    intro name type found fresh
    have fewer := size ▸ schema.offPath_cons_lt path name type found fresh
    exact ih _ fewer (type.name :: path) rfl

/-- What is selected below a type is nothing for a leaf, the type name alone, or all fields that need
    no arguments with what is selected below their types. -/
theorem expand_induction (schema : Schema) (holds : String → List FieldTree → Prop)
    (leaf : ∀ name, (∀ type, schema.type? name = some type → type.isLeaf = true) → holds name [])
    (typename : ∀ name type, schema.type? name = some type → type.isLeaf = false → holds name [.typename])
    (fields : ∀ name type (below : String → List FieldTree), schema.type? name = some type → type.isLeaf = false →
      expandable type ≠ [] → (∀ base, holds base (below base)) →
      holds name ((expandable type).map fun (field, base) => FieldTree.node field (below base)))
    (path : List String) (name : String) : holds name (schema.expand path name) := by
  induction path using schema.path_induction generalizing name with
  | step path deeper =>
    rcases leaf_or_union_or_hasParts schema name with simple | ⟨type, members, found, body⟩ | ⟨type, found, hasParts⟩
    · rw [expand_of_leaf simple]
      exact leaf name simple
    · rw [expand_of_union found body]
      exact typename name type found (by simp [TypeDefinition.isLeaf, body])
    have notLeaf := TypeDefinition.isLeaf_of_hasParts hasParts
    by_cases seen : type.name ∈ path
    · rw [expand_of_mem found hasParts seen]
      exact typename name type found notLeaf
    · rw [expand_of_notMem found hasParts seen, orTypename]
      split
      · exact typename name type found notLeaf
      · rename_i filled
        exact fields name type _ found notLeaf (by simpa using filled) (deeper name type found seen)

end Expand

end Schema

end QueryTypes
