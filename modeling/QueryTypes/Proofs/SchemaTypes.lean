import QueryTypes.Proofs.Ordered
import QueryTypes.Proofs.Results
import QueryTypes.Schema.Build

namespace QueryTypes

namespace Schema

def Distinct (schema : Schema) : Prop := (schema.types.map TypeDefinition.name).Nodup

def UnionsOfObjects (schema : Schema) : Prop :=
  ∀ type ∈ schema.types, ∀ member ∈ type.members,
    (schema.type? member).any TypeDefinition.isObject = true

instance (schema : Schema) : Decidable schema.UnionsOfObjects :=
  inferInstanceAs (Decidable (∀ type ∈ schema.types, ∀ member ∈ type.members,
    (schema.type? member).any TypeDefinition.isObject = true))

def IsBuiltIn (schema : Schema) (name : String) : Prop :=
  (schema.type? name).any TypeDefinition.isBuiltInScalar = true

section Build

theorem nodup_names_definitionsOf (items : List SchemaItem) :
    ((definitionsOf items).map TypeDefinition.name).Nodup := by
  unfold definitionsOf
  rw [map_distinctBy]
  exact nodup_distinct _

theorem names_extend {types result : List TypeDefinition} {addition : TypeExtension}
    (extended : extend types addition = .ok result) :
    result.map TypeDefinition.name = types.map TypeDefinition.name := by
  unfold extend at extended
  cases found : types.find? (·.name == addition.name) with
  | none => simp only [found] at extended; cases extended
  | some type =>
    simp only [found] at extended
    split at extended
    · cases extended
    · cases extended
      have member : type.name ∈ types.map TypeDefinition.name :=
        List.mem_map_of_mem (List.mem_of_find?_eq_some found)
      rw [map_putBy, insertNew, if_pos member]

/-- A schema is built of the extended definitions and of root types among them. -/
theorem ofItems_eq_ok {items : List SchemaItem} {schema : Schema}
    (built : ofItems items = .ok schema) :
    (extensionsOf items).foldlM extend (definitionsOf items) = .ok schema.types ∧
      ([some schema.query, schema.mutation, schema.subscription].filterMap id).forM
        (checkRoot schema.types) = .ok () := by
  unfold ofItems at built
  obtain ⟨types, extended, built⟩ := bind_eq_ok.mp built
  dsimp only at built
  split at built
  · cases built
  · obtain ⟨_, checked, built⟩ := bind_eq_ok.mp built
    cases built
    exact ⟨extended, checked⟩

theorem distinct_of_ofItems {items : List SchemaItem} {schema : Schema}
    (built : ofItems items = .ok schema) : schema.Distinct := by
  have same := foldlM_observed (List.map TypeDefinition.name) (fun _ _ _ => names_extend)
    (ofItems_eq_ok built).1
  unfold Distinct
  rw [same]
  exact nodup_names_definitionsOf items

theorem isBuiltInScalar_extend {types result : List TypeDefinition} {addition : TypeExtension}
    (name : String) (extended : extend types addition = .ok result) :
    (result.find? (·.name == name)).any TypeDefinition.isBuiltInScalar =
      (types.find? (·.name == name)).any TypeDefinition.isBuiltInScalar := by
  unfold extend at extended
  split at extended
  · cases extended
  · rename_i type found
    split at extended
    · cases extended
    · rename_i body appended
      cases extended
      have named : type.name = addition.name := by simpa using List.find?_some found
      have sameKind : TypeDefinition.isBuiltInScalar { type with body } = type.isBuiltInScalar := by
        revert appended
        unfold TypeDefinition.isBuiltInScalar
        cases type.body <;> cases addition.body <;> rintro ⟨⟩ <;> rfl
      rw [find?_putBy]
      split
      · rename_i same
        have here : types.find? (·.name == name) = some type := by
          rw [← found, ← named]
          exact congrArg (fun name => types.find? (·.name == name)) same.symm
        rw [here, Option.any_some, Option.any_some, sameKind]
      · rfl

/-- A built-in scalar that the items do not define anew is there. -/
theorem isBuiltInScalar_of_ofItems {items : List SchemaItem} {schema : Schema}
    (built : ofItems items = .ok schema) {name : String} (builtIn : name ∈ builtInScalars)
    (kept : ∀ definition, SchemaItem.type definition ∈ items → definition.name ≠ name) :
    schema.IsBuiltIn name := by
  have start : ∀ name ∈ builtInScalars, (((builtInScalars.map (⟨·, none, .scalar⟩)).foldl
      (putBy TypeDefinition.name) []).find? (·.name == name)).any TypeDefinition.isBuiltInScalar = true := by
    decide
  have same := foldlM_observed
    (fun types => (types.find? (·.name == name)).any TypeDefinition.isBuiltInScalar)
    (fun _ _ _ => isBuiltInScalar_extend name) (ofItems_eq_ok built).1
  change (schema.types.find? (·.name == name)).any TypeDefinition.isBuiltInScalar = true
  rw [same, definitionsOf, distinctBy, List.foldl_append, find?_foldl_putBy]
  · exact start name builtIn
  · intro definition written
    obtain ⟨item, member, taken⟩ := List.mem_filterMap.mp written
    cases item <;> cases taken
    exact kept definition member

end Build

section Lookup

variable {schema : Schema}

theorem name_of_type? {name : String} {type : TypeDefinition}
    (found : schema.type? name = some type) : type.name = name := by
  simpa using List.find?_some found

theorem mem_of_type? {name : String} {type : TypeDefinition}
    (found : schema.type? name = some type) : type ∈ schema.types :=
  List.mem_of_find?_eq_some found

theorem Distinct.type?_of_mem (distinct : schema.Distinct) {type : TypeDefinition}
    (member : type ∈ schema.types) : schema.type? type.name = some type :=
  find?_key_of_mem TypeDefinition.name distinct member

theorem IsBuiltIn.exists_simple {name : String} (builtIn : schema.IsBuiltIn name) :
    ∃ type, schema.type? name = some type ∧ type.isComposite = false := by
  obtain ⟨type, found, isScalar⟩ := (Option.any_eq_true _ _).mp builtIn
  refine ⟨type, found, ?_⟩
  revert isScalar
  unfold TypeDefinition.isBuiltInScalar TypeDefinition.isComposite
  cases type.body <;> simp

theorem field?_typename {parent : TypeDefinition} (hasFields : parent.isComposite = true) :
    schema.field? parent typenameField = some .typenameMeta := by
  simp [field?, typenameField, hasFields]

theorem mem_listed {abstract object : String} :
    object ∈ schema.listed abstract ↔
      ∃ type ∈ schema.types, object ∈ concreteOf abstract type := by
  simp [listed]

theorem possibleTypes_of_isObject {type : TypeDefinition} {name : String}
    (found : schema.type? name = some type) (object : type.isObject) :
    schema.possibleTypes name = [name] := by
  simp [possibleTypes, found, object, name_of_type? found]

theorem possibleTypes_of_isAbstract {type : TypeDefinition} {name : String}
    (found : schema.type? name = some type) (abstract : type.isAbstract) :
    schema.possibleTypes name = schema.listed name := by
  have notObject : type.isObject = false := by
    revert abstract
    unfold TypeDefinition.isAbstract TypeDefinition.isObject
    cases type.body <;> simp
  simp [possibleTypes, found, notObject]

/-- A name that is listed for an abstract type is that of a member of the union, or of an object
    type that names the abstract type as an interface. -/
theorem mem_concreteOf {abstract object : String} {type : TypeDefinition}
    (listed : object ∈ concreteOf abstract type) :
    object ∈ type.members ∧ type.name = abstract ∨
      object = type.name ∧ type.isObject ∧ abstract ∈ type.interfaces := by
  unfold concreteOf at listed
  split at listed
  · rename_i members body
    split at listed
    · rename_i same
      exact Or.inl ⟨by simpa [TypeDefinition.members, body] using listed, same⟩
    · cases listed
  · rename_i interfaces fields body
    split at listed
    · rename_i implemented
      refine Or.inr ⟨by simpa using listed, ?_, ?_⟩
      · simp [TypeDefinition.isObject, body]
      · simpa [TypeDefinition.interfaces, body] using implemented
    · cases listed
  · cases listed

theorem Distinct.object_of_possible (distinct : schema.Distinct) (members : schema.UnionsOfObjects)
    {abstract object : String} (possible : object ∈ schema.possibleTypes abstract) :
    ∃ type, schema.type? object = some type ∧ type.isObject := by
  unfold possibleTypes at possible
  split at possible
  · cases possible
  · rename_i type found
    split at possible
    · rename_i isObject
      have same : object = type.name := by simpa using possible
      exact ⟨type, by rw [same, name_of_type? found, found], isObject⟩
    · obtain ⟨lister, member, listed⟩ := mem_listed.mp possible
      rcases mem_concreteOf listed with ⟨inUnion, _⟩ | ⟨rfl, isObject, _⟩
      · simpa [Option.any_eq_true] using members lister member object inUnion
      · exact ⟨lister, distinct.type?_of_mem member, isObject⟩

/-- An object type of a type is one of each of its supertypes. -/
theorem possible_of_isSupertype {super sub : TypeDefinition} {object : String}
    (knownSuper : schema.type? super.name = some super)
    (knownSub : schema.type? sub.name = some sub) (above : schema.isSupertype super sub)
    (possible : object ∈ schema.possibleTypes sub.name) :
    object ∈ schema.possibleTypes super.name := by
  unfold isSupertype at above
  rcases Bool.or_eq_true _ _ ▸ above with same | below
  · have same : super.name = sub.name := by simpa using same
    rwa [same]
  · simp only [Bool.and_eq_true] at below
    obtain ⟨⟨isObject, isAbstract⟩, listed⟩ := below
    rw [possibleTypes_of_isObject knownSub isObject] at possible
    have same : object = sub.name := by simpa using possible
    rw [possibleTypes_of_isAbstract knownSuper isAbstract, same]
    simpa [isPossible] using listed

end Lookup

end Schema

end QueryTypes
