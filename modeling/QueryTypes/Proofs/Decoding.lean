import QueryTypes.Declaration.Swift
import QueryTypes.Proofs.Exclusivity

namespace QueryTypes

def TypeCase.shape (typeCase : TypeCase ResponseField) : PropertySet :=
  ⟨some typeCase.condition, typeCase.fields⟩

namespace ResponseField

variable {schema : Schema} {field : ResponseField} {type : String}

/-- The shape that the field has for an object type: that of the first case that lists the type, and
    else the one without a condition. -/
def shapeFor (field : ResponseField) (type : String) : PropertySet :=
  match field.cases.find? (·.possibleTypes.contains type) with
  | some typeCase => typeCase.shape
  | none => ⟨none, field.fields⟩

theorem uncovered_eq_filter (schema : Schema) (field : ResponseField) :
    field.uncovered schema = (schema.possibleTypes field.type.baseName).filter fun type =>
      ∀ typeCase ∈ field.cases, type ∉ typeCase.possibleTypes := by
  apply List.filter_congr
  intro type _
  rw [Bool.eq_iff_iff]
  simp

theorem mem_uncovered : type ∈ field.uncovered schema ↔
    type ∈ schema.possibleTypes field.type.baseName ∧
      ∀ typeCase ∈ field.cases, type ∉ typeCase.possibleTypes := by
  rw [uncovered_eq_filter, List.mem_filter, decide_eq_true_eq]

theorem typenames_shape (apart : (field.cases.map TypeCase.condition).Nodup)
    {typeCase : TypeCase ResponseField} (member : typeCase ∈ field.cases) :
    field.typenames schema typeCase.shape = typeCase.possibleTypes := by
  have found := find?_key_of_mem TypeCase.condition apart member
  unfold typenames TypeCase.shape
  dsimp only
  rw [found]
  rfl

theorem propertySets_eq (schema : Schema) (diverges : field.cases ≠ []) :
    field.propertySets schema = field.cases.map TypeCase.shape ++ [⟨none, field.fields⟩] ∨
      field.propertySets schema = field.cases.map TypeCase.shape ∧ field.uncovered schema = [] := by
  have nonempty : field.cases.isEmpty = false := by simpa using diverges
  have sets : field.propertySets schema = field.cases.map TypeCase.shape ++
      if field.fields.any (!·.isTypename) || !(field.uncovered schema).isEmpty then
        [⟨none, field.fields⟩]
      else [] := by
    unfold propertySets
    rw [nonempty]
    rfl
  rw [sets]
  split
  · exact .inl rfl
  · rename_i covered
    rw [Bool.not_eq_true, Bool.or_eq_false_iff] at covered
    exact .inr ⟨List.append_nil _, by simpa using covered.2⟩

theorem propertySets_ne_nil (schema : Schema) (diverges : field.cases ≠ []) :
    field.propertySets schema ≠ [] := by
  rcases propertySets_eq schema diverges with sets | ⟨sets, _⟩
  · simp [sets]
  · simpa [sets] using diverges

/-- Of the shapes of the field, the one for an object type is the first that applies to the type. -/
theorem propertySets_eq_append (diverges : field.cases ≠ [])
    (apart : (field.cases.map TypeCase.condition).Nodup)
    (possible : type ∈ schema.possibleTypes field.type.baseName) :
    ∃ earlier later, field.propertySets schema = earlier ++ field.shapeFor type :: later ∧
      (∀ set ∈ earlier, type ∉ field.typenames schema set) ∧
      type ∈ field.typenames schema (field.shapeFor type) := by
  have sets := propertySets_eq schema diverges
  unfold shapeFor
  cases found : field.cases.find? (·.possibleTypes.contains type) with
  | some typeCase =>
    obtain ⟨lists, earlier, later, cut, skipped⟩ := List.find?_eq_some_iff_append.mp found
    have member : typeCase ∈ field.cases := by simp [cut]
    have shapes : field.cases.map TypeCase.shape =
        earlier.map TypeCase.shape ++ typeCase.shape :: later.map TypeCase.shape := by simp [cut]
    have absent : ∀ set ∈ earlier.map TypeCase.shape, type ∉ field.typenames schema set := by
      intro set listed
      obtain ⟨other, before, rfl⟩ := List.mem_map.mp listed
      have inCases : other ∈ field.cases := by simp [cut, before]
      rw [typenames_shape apart inCases]
      simpa using skipped other before
    have applies : type ∈ field.typenames schema typeCase.shape := by
      rw [typenames_shape apart member]
      simpa using lists
    rcases sets with sets | ⟨sets, _⟩
    · exact ⟨_, later.map TypeCase.shape ++ [⟨none, field.fields⟩], by simp [sets, shapes], absent, applies⟩
    · exact ⟨_, later.map TypeCase.shape, by rw [sets, shapes], absent, applies⟩
  | none =>
    have absent : ∀ typeCase ∈ field.cases, type ∉ typeCase.possibleTypes := by
      simpa [List.find?_eq_none] using found
    have left : type ∈ field.uncovered schema := mem_uncovered.mpr ⟨possible, absent⟩
    rcases sets with sets | ⟨_, none⟩
    · refine ⟨_, [], sets, ?_, left⟩
      intro set listed
      obtain ⟨typeCase, member, rfl⟩ := List.mem_map.mp listed
      rw [typenames_shape apart member]
      exact absent typeCase member
    · rw [none] at left
      cases left

end ResponseField

namespace Swift

variable {e : Emission} {field : ResponseField} {type : String}

/-- The variant that a switch chooses for a type name. -/
def choose? (arms : List Arm) (typename : String) : Option Variant :=
  (arms.find? fun arm => arm.labels.all (·.contains typename)).map Arm.variant

theorem choose?_arms_cons_of_mem {variant : Variant} {rest : List Variant}
    (listed : type ∈ variant.typenames) : choose? (arms (variant :: rest)) type = some variant := by
  cases rest with
  | nil => rfl
  | cons next rest =>
    have nonempty : variant.typenames.isEmpty = false := by
      simpa using List.ne_nil_of_mem listed
    rw [arms, nonempty]
    · simp [choose?, listed]
    · exact nofun

theorem choose?_arms_cons_of_not_mem {variant : Variant} {rest : List Variant} (more : rest ≠ [])
    (absent : type ∉ variant.typenames) :
    choose? (arms (variant :: rest)) type = choose? (arms rest) type := by
  rw [arms]
  · split
    · rfl
    · simp [choose?, absent]
  · exact more

/-- A switch chooses the first variant that has the type name. -/
theorem choose?_arms_append {earlier later : List Variant} {variant : Variant}
    (absent : ∀ other ∈ earlier, type ∉ other.typenames) (listed : type ∈ variant.typenames) :
    choose? (arms (earlier ++ variant :: later)) type = some variant := by
  induction earlier with
  | nil => exact choose?_arms_cons_of_mem listed
  | cons first earlier ih =>
    obtain ⟨skipped, absent⟩ := List.forall_mem_cons.mp absent
    rw [List.cons_append, choose?_arms_cons_of_not_mem (by simp) skipped]
    exact ih absent

/-- For an object type of a field, the switch over its shapes chooses the one that the field has for the type. -/
theorem choose?_shapeFor (diverges : field.cases ≠ []) (apart : (field.cases.map TypeCase.condition).Nodup)
    (possible : type ∈ e.schema.possibleTypes field.type.baseName) :
    choose? (arms ((field.propertySets e.schema).map (variant e field))) type =
      some (variant e field (field.shapeFor type)) := by
  obtain ⟨earlier, later, sets, absent, applies⟩ :=
    ResponseField.propertySets_eq_append diverges apart possible
  rw [sets, List.map_append, List.map_cons]
  refine choose?_arms_append ?_ applies
  intro other listed
  obtain ⟨set, before, rfl⟩ := List.mem_map.mp listed
  exact absent set before

def shapeType (e : Emission) (field : ResponseField) (set : PropertySet) : Except Error Nested := do
  return .struct (variant e field set).structName (← set.fields.mapM (property e)) (← nested e set.fields)

theorem caseTypes_eq (cases : List (TypeCase ResponseField)) :
    caseTypes e cases = (cases.map TypeCase.shape).mapM (shapeType e field) := by
  induction cases with
  | nil => rfl
  | cons typeCase rest ih =>
    rw [caseTypes, List.map_cons, List.mapM_cons, ih, caseType]
    rfl

/-- The type nested for a field that has cases: an enum with a variant for each shape, and the types
    of these shapes in it. -/
theorem nestedType_eq (diverges : field.cases ≠ []) :
    nestedType e field = do
      return .choice (structName field.responseName) ((field.propertySets e.schema).map (variant e field))
        (← (field.propertySets e.schema).mapM (shapeType e field)) := by
  have sets := field.propertySets_eq e.schema diverges
  have nonempty := field.propertySets_ne_nil e.schema diverges
  have shapes : caseTypes e field.cases = (field.cases.map TypeCase.shape).mapM (shapeType e field) :=
    caseTypes_eq field.cases
  obtain ⟨responseName, fieldName, type, description, isConditional, fields, spreads, cases⟩ := field
  rw [nestedType]
  dsimp only at shapes sets ⊢
  rw [shapes]
  split
  · rename_i empty
    exact absurd empty nonempty
  · rcases sets with sets | ⟨sets, _⟩
    · have hasBase : (cases.map TypeCase.shape ++ [PropertySet.mk none fields]).any
          (·.condition.isNone) = true := by simp
      rw [sets]
      simp only [hasBase, if_true, List.mapM_append, List.mapM_cons, List.mapM_nil, shapeType,
        bind_assoc, pure_bind]
      rfl
    · have noBase : (cases.map TypeCase.shape).any (·.condition.isNone) = false := by
        simp [TypeCase.shape]
      rw [sets]
      simp only [noBase, Bool.false_eq_true, if_false, pure_bind, List.append_nil]

end Swift

/-- The enum that is declared for a field with cases has a variant for each shape, and its switch
    takes an object type of the field to the shape of the first case that lists the type, or to the
    one without a condition, which is there if no case lists it. -/
theorem decoded_as_shapeFor {e : Emission} {field : ResponseField} (diverges : field.cases ≠ [])
    (apart : (field.cases.map TypeCase.condition).Nodup) :
    (Swift.nestedType e field = do
      return .choice (Swift.structName field.responseName)
        ((field.propertySets e.schema).map (Swift.variant e field))
        (← (field.propertySets e.schema).mapM (Swift.shapeType e field))) ∧
    (∀ type ∈ e.schema.possibleTypes field.type.baseName,
      field.shapeFor type ∈ field.propertySets e.schema ∧
      Swift.choose? (Swift.arms ((field.propertySets e.schema).map (Swift.variant e field))) type =
        some (Swift.variant e field (field.shapeFor type))) ∧
    field.typenames e.schema ⟨none, field.fields⟩ =
      (e.schema.possibleTypes field.type.baseName).filter fun type =>
        ∀ typeCase ∈ field.cases, type ∉ typeCase.possibleTypes := by
  refine ⟨Swift.nestedType_eq diverges, ?_, field.uncovered_eq_filter e.schema⟩
  intro type possible
  obtain ⟨earlier, later, sets, _⟩ := ResponseField.propertySets_eq_append diverges apart possible
  refine ⟨?_, Swift.choose?_shapeFor diverges apart possible⟩
  rw [sets]
  exact List.mem_append_right _ List.mem_cons_self

/-- The field `n` of the type `A` has two cases for `T`, and `x` for `U`. -/
theorem decoded_as_shapeFor_scattered :
    let e : Emission := ⟨⟨Overlap.schema, [], [], []⟩, {}, false⟩
    let variants := (Overlap.scatteredField.propertySets e.schema).map (Swift.variant e Overlap.scatteredField)
    variants = [⟨"asT", "AsT", ["T"]⟩, ⟨"asB", "AsB", ["T"]⟩, ⟨"asA", "AsA", ["U"]⟩] ∧
    Swift.choose? (Swift.arms variants) "T" = some ⟨"asT", "AsT", ["T"]⟩ ∧
    Swift.choose? (Swift.arms variants) "U" = some ⟨"asA", "AsA", ["U"]⟩ := by
  intro e variants
  have diverges : Overlap.scatteredField.cases ≠ [] := nofun
  obtain ⟨_, routes, _⟩ := decoded_as_shapeFor (e := e) diverges (by decide)
  exact ⟨rfl, (routes "T" (by decide)).2, (routes "U" (by decide)).2⟩

end QueryTypes
