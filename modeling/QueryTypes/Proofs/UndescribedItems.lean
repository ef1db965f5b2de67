import QueryTypes.Proofs.UndescribedDeclarations

namespace QueryTypes.Swift

theorem Nested.uncommentedAll_eq (types : List Nested) : uncommentedAll types = types.map uncommented := by
  induction types with
  | nil => rfl
  | cons type rest ih => rw [uncommentedAll, ih]; rfl

theorem Nested.commentsAll_eq (types : List Nested) : commentsAll types = types.flatMap comments := by
  induction types with
  | nil => rfl
  | cons type rest ih => rw [commentsAll, ih]; rfl

variable (allowed : String → Prop)

abbrev PlainProperty : Property → Property → Prop := Strips allowed Property.uncommented (·.comment.toList)

abbrev PlainProperties : List Property → List Property → Prop :=
  StripsAll allowed Property.uncommented (·.comment.toList)

abbrev PlainNested : Nested → Nested → Prop := Strips allowed Nested.uncommented Nested.comments

abbrev PlainNestedTypes : List Nested → List Nested → Prop := StripsAll allowed Nested.uncommented Nested.comments

abbrev PlainItem : Item → Item → Prop := Strips allowed Item.uncommented Item.comments

def AllowsField (field : ResponseField) : Prop := ∀ description ∈ field.description, allowed (trim description)

structure AllowsEnum (type : TypeDefinition) : Prop where
  own : ∀ description ∈ type.description, allowed (trim description)
  values : ∀ value ∈ type.values, ∀ description ∈ value.description, allowed (trim description)

structure AllowsAll (e : Emission) : Prop where
  fields : ∀ operation ∈ e.compiled.operations, ∀ field ∈ operation.fields, field.Everywhere (AllowsField allowed)
  enums : ∀ type ∈ e.enumsUsed, AllowsEnum allowed type

variable {allowed} {e : Emission} {field : ResponseField} {fields : List ResponseField}

theorem leafName_undescribed (e : Emission) (name : String) : leafName e.undescribed name = leafName e name := by
  unfold leafName
  rw [Emission.schema_undescribed, Schema.type?_undescribed]
  cases e.schema.type? name with
  | none => rfl
  | some type =>
    obtain ⟨_, _, body⟩ := type
    cases body <;> rfl

theorem plain_struct {properties plain : List Property} {inner plainInner : List Nested} (name : String)
    (own : PlainProperties allowed properties plain) (below : PlainNestedTypes allowed inner plainInner) :
    PlainNested allowed (.struct name properties inner) (.struct name plain plainInner) := by
  constructor
  · rw [Nested.uncommented, Nested.uncommentedAll_eq, own.stripped, below.stripped]
  · intro comment listed
    rw [Nested.comments, Nested.commentsAll_eq, List.mem_append] at listed
    exact listed.elim (own.clean comment) (below.clean comment)

theorem plain_choice {inner plainInner : List Nested} (name : String) (variants : List Variant)
    (below : PlainNestedTypes allowed inner plainInner) :
    PlainNested allowed (.choice name variants inner) (.choice name variants plainInner) := by
  constructor
  · rw [Nested.uncommented, Nested.uncommentedAll_eq, below.stripped]
  · intro comment listed
    rw [Nested.comments, Nested.commentsAll_eq] at listed
    exact below.clean comment listed

theorem alike_property (described : AllowsField allowed field) :
    Alike (PlainProperty allowed) (property e field) (property e.undescribed field.undescribed) := by
  have undescribed : field.undescribed.description = none := by rw [ResponseField.undescribed_eq]
  simp only [property, Emission.isComposite_undescribed, ResponseField.responseName_undescribed,
    ResponseField.type_undescribed, ResponseField.isTypename_undescribed, leafName_undescribed, undescribed,
    Option.map_none, ite_self]
  refine alike_bind _ fun type => .ok ⟨rfl, ?_⟩
  intro comment shown
  dsimp only at shown
  split at shown
  · cases shown
  · obtain ⟨description, known, rfl⟩ := Option.map_eq_some_iff.mp (Option.mem_toList.mp shown)
    exact described description known

theorem alike_properties (described : ∀ field ∈ fields, field.Everywhere (AllowsField allowed)) :
    Alike (PlainProperties allowed) (fields.mapM (property e))
      ((fields.map ResponseField.undescribed).mapM (property e.undescribed)) :=
  alike_mapM fun field member => alike_property (ResponseField.everywhere_iff.mp (described field member)).1

theorem alike_nested
    (each : ∀ field ∈ fields, Alike (PlainNested allowed) (nestedType e field)
      (nestedType e.undescribed field.undescribed)) :
    Alike (PlainNestedTypes allowed) (nested e fields)
      (nested e.undescribed (fields.map ResponseField.undescribed)) := by
  rw [nested_eq, nested_eq]
  apply alike_gather
  intro field member
  rw [Emission.isComposite_undescribed]
  split
  · exact (each field member).map fun _ _ same => .cons same .nil
  · exact .ok .nil

theorem variant_undescribed (e : Emission) (field : ResponseField) (set : PropertySet) :
    variant e.undescribed field.undescribed set.undescribed = variant e field set := by
  simp only [variant, ResponseField.setName_undescribed, Emission.schema_undescribed,
    ResponseField.typenames_undescribed]

/-- The type of a shape, if that of each of its fields is known. -/
theorem alike_shapeType {set : PropertySet} (described : ∀ child ∈ set.fields, child.Everywhere (AllowsField allowed))
    (each : ∀ child ∈ set.fields, Alike (PlainNested allowed) (nestedType e child)
      (nestedType e.undescribed child.undescribed)) (field : ResponseField) :
    Alike (PlainNested allowed) (shapeType e field set) (shapeType e.undescribed field.undescribed set.undescribed) := by
  have fields : set.undescribed.fields = set.fields.map ResponseField.undescribed := rfl
  unfold shapeType
  rw [variant_undescribed, fields]
  refine (alike_properties described).bind fun _ _ own => ?_
  exact (alike_nested each).map fun _ _ below => plain_struct _ own below

theorem alike_nestedType (described : field.Everywhere (AllowsField allowed)) :
    Alike (PlainNested allowed) (nestedType e field) (nestedType e.undescribed field.undescribed) := by
  induction field using ResponseField.induction_below with
  | step field below belowCases =>
    obtain ⟨_, inFields, inCases⟩ := ResponseField.everywhere_iff.mp described
    have ofFields := fun child member => below child member (inFields child member)
    have ofCases := fun typeCase listed child member =>
      belowCases typeCase listed child member (inCases typeCase listed child member)
    have sets : field.undescribed.propertySets e.undescribed.schema = [] ↔ field.propertySets e.schema = [] :=
      field.propertySets_undescribed_eq_nil_iff e.schema
    by_cases uniform : field.propertySets e.schema = []
    · rw [nestedType_of_uniform uniform, nestedType_of_uniform (sets.mpr uniform), field.fields_undescribed,
        field.responseName_undescribed]
      refine (alike_properties inFields).bind fun _ _ own => ?_
      exact (alike_nested ofFields).map fun _ _ below => plain_struct _ own below
    · have diverges : field.cases ≠ [] := by
        intro none
        exact uniform (by simp [ResponseField.propertySets, none])
      have divergesTwin : field.undescribed.cases ≠ [] := by
        rw [field.cases_undescribed]
        simpa using diverges
      have variants : ((field.propertySets e.schema).map PropertySet.undescribed).map
          (variant e.undescribed field.undescribed) = (field.propertySets e.schema).map (variant e field) := by
        simp [variant_undescribed]
      rw [nestedType_eq diverges, nestedType_eq divergesTwin, Emission.schema_undescribed,
        field.propertySets_undescribed, field.responseName_undescribed, variants]
      have shapes : Alike (PlainNestedTypes allowed) ((field.propertySets e.schema).mapM (shapeType e field))
          (((field.propertySets e.schema).map PropertySet.undescribed).mapM
            (shapeType e.undescribed field.undescribed)) := by
        apply alike_mapM
        intro set listed
        rcases ResponseField.mem_fields_of_mem_propertySets listed with same | ⟨typeCase, member, same⟩
        · exact alike_shapeType (same ▸ inFields) (same ▸ ofFields) field
        · exact alike_shapeType (same ▸ inCases typeCase member) (same ▸ ofCases typeCase member) field
      exact shapes.map fun _ _ same => plain_choice _ _ same

theorem parameter_undescribed (e : Emission) : parameter e.undescribed = parameter e := by
  funext name type
  simp only [parameter, leafName_undescribed]

theorem alike_operationItem {operation : CompiledOperation}
    (described : ∀ field ∈ operation.fields, field.Everywhere (AllowsField allowed)) :
    Alike (PlainItem allowed) (operationItem e operation) (operationItem e.undescribed operation.undescribed) := by
  have fields : operation.undescribed.fields = operation.fields.map ResponseField.undescribed :=
    ResponseField.undescribedAll_eq operation.fields
  have parameters : operation.undescribed.parameters = operation.parameters := rfl
  unfold operationItem
  rw [fields, parameters, parameter_undescribed]
  refine alike_bind _ fun parameters => ?_
  refine (alike_properties described).bind fun _ _ own => ?_
  refine (alike_nested fun field member => alike_nestedType (described field member)).map fun _ _ below => ?_
  have data := plain_struct "Data" own below
  exact ⟨congrArg _ data.stripped, data.clean⟩

theorem plain_enumItem {type : TypeDefinition} (described : AllowsEnum allowed type) :
    PlainItem allowed (enumItem type) (enumItem type.undescribed) := by
  constructor
  · rw [enumItem, enumItem, Item.uncommented, type.values_undescribed]
    rfl
  · intro comment listed
    rw [enumItem, Item.comments, List.mem_append, List.mem_flatMap] at listed
    rcases listed with own | ⟨value, member, shown⟩
    · obtain ⟨description, known, rfl⟩ := Option.map_eq_some_iff.mp (Option.mem_toList.mp own)
      exact described.own description known
    · obtain ⟨description, known, rfl⟩ := Option.map_eq_some_iff.mp (Option.mem_toList.mp shown)
      exact described.values value member description known

theorem plain_input (name : String) (parameters : List Parameter) :
    PlainItem allowed (.input name parameters) (.input name parameters) := ⟨rfl, nofun⟩

theorem alike_inputItem (allowed : String → Prop) (type : TypeDefinition) :
    Alike (PlainItem allowed) (inputItem e type) (inputItem e.undescribed type.undescribed) := by
  have fields : (type.inputFields.map InputValue.undescribed).mapM (fun field => parameter e field.name field.type) =
      type.inputFields.mapM fun field => parameter e field.name field.type := by
    rw [List.mapM_map]
    rfl
  unfold inputItem
  rw [type.inputFields_undescribed, parameter_undescribed, fields]
  exact alike_bind _ fun parameters => .ok (plain_input _ parameters)

theorem alike_items (described : AllowsAll allowed e) :
    Alike (StripsAll allowed Item.uncommented Item.comments) (items e) (items e.undescribed) := by
  have operations : e.undescribed.compiled.operations = e.compiled.operations.map CompiledOperation.undescribed := rfl
  have enums : StripsAll allowed Item.uncommented Item.comments (e.enumsUsed.map enumItem)
      ((e.enumsUsed.map TypeDefinition.undescribed).map enumItem) :=
    stripsAll_map fun type used => plain_enumItem (described.enums type used)
  unfold items
  rw [operations, e.inputsUsed_undescribed, e.enumsUsed_undescribed]
  refine (alike_mapM fun operation member => alike_operationItem (described.fields operation member)).bind
    fun _ _ ofOperations => ?_
  refine (alike_mapM fun type _ => alike_inputItem allowed type).map fun _ _ ofInputs => ?_
  exact (ofOperations.append enums).append ofInputs

end QueryTypes.Swift
