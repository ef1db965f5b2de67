import QueryTypes.Proofs.Exclusivity

namespace QueryTypes

open ResponseField

inductive Label where
  | key (name : String)
  | condition (name : String)
  deriving DecidableEq, Repr

/-- A path through response names and conditions of cases that starts in a list of fields. -/
inductive HasPath : List ResponseField → List Label → Prop
  | nil {fields} : HasPath fields []
  | field {fields field path} (member : field ∈ fields) (onward : HasPath field.fields path) :
    HasPath fields (.key field.responseName :: path)
  | case {fields field typeCase path} (member : field ∈ fields) (listed : typeCase ∈ field.cases)
    (onward : HasPath typeCase.fields path) :
    HasPath fields (.key field.responseName :: .condition typeCase.condition :: path)

inductive ResponseField.GoesOn (field : ResponseField) : List Label → Prop
  | field {path} (onward : HasPath field.fields path) : GoesOn field path
  | case {typeCase path} (listed : typeCase ∈ field.cases) (onward : HasPath typeCase.fields path) :
    GoesOn field (.condition typeCase.condition :: path)

theorem hasPath_key {fields : List ResponseField} {name : String} {path : List Label} :
    HasPath fields (.key name :: path) ↔
      ∃ field ∈ fields, field.responseName = name ∧ field.GoesOn path := by
  constructor
  · intro starts
    cases starts with
    | field member onward => exact ⟨_, member, rfl, .field onward⟩
    | case member listed onward => exact ⟨_, member, rfl, .case listed onward⟩
  · rintro ⟨field, member, rfl, onward⟩
    cases onward with
    | field onward => exact .field member onward
    | case listed onward => exact .case member listed onward

theorem not_hasPath_condition {fields : List ResponseField} {name : String} {path : List Label} :
    ¬HasPath fields (.condition name :: path) := by
  intro starts
  cases starts

theorem goesOn_key {field : ResponseField} {name : String} {path : List Label} :
    field.GoesOn (.key name :: path) ↔ HasPath field.fields (.key name :: path) := by
  constructor
  · intro onward
    cases onward with
    | field onward => exact onward
  · exact .field

theorem goesOn_condition {field : ResponseField} {name : String} {path : List Label} :
    field.GoesOn (.condition name :: path) ↔
      ∃ typeCase ∈ field.cases, typeCase.condition = name ∧ HasPath typeCase.fields path := by
  constructor
  · intro onward
    cases onward with
    | field onward => exact absurd onward not_hasPath_condition
    | case listed onward => exact ⟨_, listed, rfl, onward⟩
  · rintro ⟨typeCase, listed, rfl, onward⟩
    exact .case listed onward

/-- A path of merged lists is one of either list, and goes on behind a field that has absorbed another
    one if it does behind either of them. -/
theorem hasPath_and_goesOn (path : List Label) :
    (∀ xs ys, HasPath (mergeAll xs ys) path ↔ HasPath xs path ∨ HasPath ys path) ∧
      ∀ x y : ResponseField, (x.absorb y).GoesOn path ↔ x.GoesOn path ∨ y.GoesOn path := by
  induction path with
  | nil => exact ⟨fun _ _ => ⟨fun _ => .inl .nil, fun _ => .nil⟩,
      fun _ _ => ⟨fun _ => .inl (.field .nil), fun _ => .field .nil⟩⟩
  | cons label path ih =>
    obtain ⟨merged, absorbed⟩ := ih
    cases label with
    | key name =>
      have lists (xs ys : List ResponseField) : HasPath (mergeAll xs ys) (.key name :: path) ↔
          HasPath xs (.key name :: path) ∨ HasPath ys (.key name :: path) := by
        simp only [hasPath_key, mergeAll_eq]
        exact exists_mem_mergeBy responseName_absorb absorbed xs ys name
      refine ⟨lists, fun x y => ?_⟩
      simp only [goesOn_key]
      exact lists x.fields y.fields
    | condition name =>
      refine ⟨fun xs ys => by simp only [not_hasPath_condition, or_self], fun x y => ?_⟩
      simp only [goesOn_condition, ResponseField.absorb, mergeCases_eq]
      exact exists_mem_mergeBy TypeCase.condition_absorb
        (fun first second => merged first.fields second.fields) x.cases y.cases name

namespace Overlap

theorem wellKeyed_repeated : FieldsWellKeyed [repeatedField] :=
  (repeated_run.wellKeyed Collection.wellKeyed_empty).target.fields

theorem wellKeyed_scattered : FieldsWellKeyed [scatteredField] :=
  (scattered_run.wellKeyed Collection.wellKeyed_empty).target.fields

end Overlap

/-- Field lists with unique keys and conditions at every depth form an associative and idempotent union:
    of response names in order, and of the paths below. -/
theorem mergeAll_union {a b c : List ResponseField} (first : FieldsWellKeyed a) (second : FieldsWellKeyed b)
    (third : FieldsWellKeyed c) :
    mergeAll (mergeAll a b) c = mergeAll a (mergeAll b c) ∧ mergeAll a a = a ∧
      keys (mergeAll a b) = keys a ++ (keys b).filter (· ∉ keys a) ∧
      ∀ path, HasPath (mergeAll a b) path ↔ HasPath a path ∨ HasPath b path := by
  refine ⟨mergeAll_assoc second third, mergeAll_self first, ?_, ?_⟩
  · rw [keys_mergeAll, insertAll_eq_append_filter second.keys]
  · exact fun path => (hasPath_and_goesOn path).1 a b

/-- `n { x ... on B { x y } }` and `n { x ... on T { y } ... on B { y } }`: only the second one has `y`
    under the condition `T`, and both in one have it too. -/
theorem mergeAll_union_overlap :
    mergeAll (mergeAll [Overlap.repeatedField] [Overlap.scatteredField]) [Overlap.leaf "x"] =
        mergeAll [Overlap.repeatedField] (mergeAll [Overlap.scatteredField] [Overlap.leaf "x"]) ∧
      ¬HasPath [Overlap.repeatedField] [.key "n", .condition "T", .key "y"] ∧
      HasPath (mergeAll [Overlap.repeatedField] [Overlap.scatteredField])
        [.key "n", .condition "T", .key "y"] := by
  obtain ⟨assoc, _, _, paths⟩ := mergeAll_union Overlap.wellKeyed_repeated Overlap.wellKeyed_scattered
    (.single (Compiler.wellKeyed_leaf ⟨.start, none, "x", [], []⟩ ⟨"x", none, [], .named "Int"⟩ false []))
  have inCase : HasPath [Overlap.leaf "y"] [.key "y"] := .field (List.mem_singleton_self _) .nil
  refine ⟨assoc, ?_, (paths _).mpr (.inr ?_)⟩
  · simp [hasPath_key, goesOn_condition, Overlap.repeatedField]
  · have onward : Overlap.scatteredField.GoesOn [.condition "T", .key "y"] :=
      goesOn_condition.mpr ⟨_, List.mem_cons_self, rfl, inCase⟩
    exact hasPath_key.mpr ⟨_, List.mem_singleton_self _, rfl, onward⟩

end QueryTypes
