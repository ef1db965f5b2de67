import QueryTypes.Proofs.Comments
import QueryTypes.Proofs.Emitting
import QueryTypes.Proofs.UndescribedShapes

namespace QueryTypes

section Alike

variable {ε α β γ δ : Type} {related : α → β → Prop} {after : γ → δ → Prop}

/-- Both fail in the same way, or both succeed with related results. -/
inductive Alike (related : α → β → Prop) : Except ε α → Except ε β → Prop
  | error (fault : ε) : Alike related (.error fault) (.error fault)
  | ok {a : α} {b : β} (same : related a b) : Alike related (.ok a) (.ok b)

theorem Alike.bind {x : Except ε α} {y : Except ε β} {f : α → Except ε γ} {g : β → Except ε δ}
    (first : Alike related x y) (onward : ∀ a b, related a b → Alike after (f a) (g b)) :
    Alike after (x >>= f) (y >>= g) := by
  cases first with
  | error fault => exact .error fault
  | ok same => exact onward _ _ same

theorem Alike.map {x : Except ε α} {y : Except ε β} {f : α → γ} {g : β → δ} (first : Alike related x y)
    (onward : ∀ a b, related a b → after (f a) (g b)) :
    Alike after (do return f (← x)) (do return g (← y)) :=
  first.bind fun a b same => .ok (onward a b same)

theorem Alike.exists_right {a : α} {y : Except ε β} (alike : Alike related (.ok a) y) : ∃ b, y = .ok b ∧ related a b := by
  cases alike with
  | ok same => exact ⟨_, rfl, same⟩

theorem Alike.exists_left {x : Except ε α} {b : β} (alike : Alike related x (.ok b)) : ∃ a, x = .ok a ∧ related a b := by
  cases alike with
  | ok same => exact ⟨_, rfl, same⟩

theorem alike_bind (x : Except ε α) {f : α → Except ε γ} {g : α → Except ε δ}
    (onward : ∀ a, Alike after (f a) (g a)) : Alike after (x >>= f) (x >>= g) := by
  cases x with
  | error fault => exact .error fault
  | ok a => exact onward a

end Alike

section Strips

variable {ε α β : Type} {allowed : String → Prop} {strip : α → α} {comments : α → List String}

/-- The second is the first without its comments, and these are allowed. -/
structure Strips (allowed : String → Prop) (strip : α → α) (comments : α → List String) (a b : α) : Prop where
  stripped : b = strip a
  clean : ∀ comment ∈ comments a, allowed comment

def StripsAll (allowed : String → Prop) (strip : α → α) (comments : α → List String) (xs ys : List α) : Prop :=
  Strips allowed (List.map strip) (List.flatMap comments) xs ys

theorem StripsAll.nil : StripsAll allowed strip comments [] [] := ⟨rfl, nofun⟩

theorem StripsAll.append {xs ys xs' ys' : List α} (first : StripsAll allowed strip comments xs ys)
    (second : StripsAll allowed strip comments xs' ys') :
    StripsAll allowed strip comments (xs ++ xs') (ys ++ ys') := by
  constructor
  · rw [first.stripped, second.stripped, List.map_append]
  · intro comment listed
    rw [List.flatMap_append, List.mem_append] at listed
    exact listed.elim (first.clean comment) (second.clean comment)

theorem StripsAll.cons {x y : α} {xs ys : List α} (first : Strips allowed strip comments x y)
    (rest : StripsAll allowed strip comments xs ys) : StripsAll allowed strip comments (x :: xs) (y :: ys) := by
  have single : StripsAll allowed strip comments [x] [y] :=
    ⟨congrArg (fun y => [y]) first.stripped, by simpa using first.clean⟩
  exact single.append rest

theorem StripsAll.flatten {xss yss : List (List α)}
    (each : StripsAll allowed (List.map strip) (List.flatMap comments) xss yss) :
    StripsAll allowed strip comments xss.flatten yss.flatten := by
  constructor
  · rw [each.stripped, List.map_flatten]
  · intro comment listed
    obtain ⟨x, inside, found⟩ := List.mem_flatMap.mp listed
    obtain ⟨xs, member, inner⟩ := List.mem_flatten.mp inside
    exact each.clean comment (List.mem_flatMap.mpr ⟨xs, member, List.mem_flatMap.mpr ⟨x, inner, found⟩⟩)

theorem stripsAll_map {twin : β → β} {f g : β → α} {xs : List β}
    (each : ∀ x ∈ xs, Strips allowed strip comments (f x) (g (twin x))) :
    StripsAll allowed strip comments (xs.map f) ((xs.map twin).map g) := by
  induction xs with
  | nil => exact .nil
  | cons x xs ih =>
    rw [List.forall_mem_cons] at each
    exact .cons each.1 (ih each.2)

/-- What holds step by step holds of a list that is made by steps. -/
theorem alike_mapM {twin : β → β} {f g : β → Except ε α} {xs : List β}
    (each : ∀ x ∈ xs, Alike (Strips allowed strip comments) (f x) (g (twin x))) :
    Alike (StripsAll allowed strip comments) (xs.mapM f) ((xs.map twin).mapM g) := by
  induction xs with
  | nil => exact .ok .nil
  | cons x xs ih =>
    rw [List.forall_mem_cons] at each
    rw [List.map_cons, List.mapM_cons, List.mapM_cons]
    refine each.1.bind fun a b first => ?_
    exact (ih each.2).map fun as bs rest => .cons first rest

theorem alike_gather {twin : β → β} {f g : β → Except ε (List α)} {xs : List β}
    (each : ∀ x ∈ xs, Alike (StripsAll allowed strip comments) (f x) (g (twin x))) :
    Alike (StripsAll allowed strip comments) (gather f xs) (gather g (xs.map twin)) :=
  (alike_mapM each).map fun _ _ same => same.flatten

end Strips

namespace ResponseField

variable (schema : Schema) (field : ResponseField)

@[simp] theorem isTypename_undescribed : field.undescribed.isTypename = field.isTypename := by
  simp only [isTypename, undescribed_eq]

@[simp] theorem type_undescribed : field.undescribed.type = field.type := by rw [undescribed_eq]

theorem fields_undescribed : field.undescribed.fields = field.fields.map undescribed := by
  rw [undescribed_eq, ← undescribedAll_eq]

theorem cases_undescribed : field.undescribed.cases = field.cases.map undescribedCase := by
  rw [undescribed_eq, ← undescribedCases_eq]

@[simp] theorem possibleTypes_undescribedCase (typeCase : TypeCase ResponseField) :
    (undescribedCase typeCase).possibleTypes = typeCase.possibleTypes := by
  rw [undescribedCase_eq]

theorem fields_undescribedCase (typeCase : TypeCase ResponseField) :
    (undescribedCase typeCase).fields = typeCase.fields.map undescribed := by
  rw [undescribedCase_eq, ← undescribedAll_eq]

@[simp] theorem uncovered_undescribed : field.undescribed.uncovered schema.undescribed = field.uncovered schema := by
  simp [uncovered, cases_undescribed, Function.comp_def]

end ResponseField

def PropertySet.undescribed (set : PropertySet) : PropertySet :=
  { set with fields := set.fields.map ResponseField.undescribed }

namespace ResponseField

variable (schema : Schema) (field : ResponseField)

theorem shape_undescribedCase (typeCase : TypeCase ResponseField) :
    (undescribedCase typeCase).shape = typeCase.shape.undescribed := by
  simp only [TypeCase.shape, PropertySet.undescribed, condition_undescribedCase, fields_undescribedCase]

theorem propertySets_undescribed :
    field.undescribed.propertySets schema.undescribed = (field.propertySets schema).map PropertySet.undescribed := by
  have shapes : (field.cases.map undescribedCase).map TypeCase.shape =
      (field.cases.map TypeCase.shape).map PropertySet.undescribed := by
    simp [shape_undescribedCase]
  have others : (field.fields.map undescribed).any (!·.isTypename) = field.fields.any (!·.isTypename) := by
    simp [List.any_map, Function.comp_def]
  simp only [propertySets, cases_undescribed, fields_undescribed, List.isEmpty_map, others, uncovered_undescribed]
  split
  · rfl
  · rw [List.map_append]
    refine congr (congrArg _ shapes) ?_
    split <;> rfl

theorem propertySets_undescribed_eq_nil_iff :
    field.undescribed.propertySets schema.undescribed = [] ↔ field.propertySets schema = [] := by
  rw [propertySets_undescribed, List.map_eq_nil_iff]

theorem any_propertySets_undescribed :
    (field.undescribed.propertySets schema.undescribed).any (·.condition.isNone) =
      (field.propertySets schema).any (·.condition.isNone) := by
  rw [propertySets_undescribed, List.any_map]
  rfl

@[simp] theorem typenames_undescribed (set : PropertySet) :
    field.undescribed.typenames schema.undescribed set.undescribed = field.typenames schema set := by
  obtain ⟨condition, fields⟩ := set
  cases condition with
  | none => exact field.uncovered_undescribed schema
  | some condition =>
    simp only [typenames, PropertySet.undescribed, cases_undescribed, List.find?_map]
    have named : (fun typeCase : TypeCase ResponseField => typeCase.condition == condition) ∘ undescribedCase =
        (·.condition == condition) := by
      funext typeCase
      simp
    rw [named]
    cases field.cases.find? (·.condition == condition) <;> simp

@[simp] theorem setName_undescribed (set : PropertySet) :
    field.undescribed.setName set.undescribed = field.setName set := by
  simp [setName, PropertySet.undescribed]

end ResponseField

theorem CompiledFragment.toField_undescribed (fragment : CompiledFragment) :
    fragment.undescribed.toField = fragment.toField.undescribed := by
  rw [ResponseField.undescribed_eq]
  rfl

namespace Emission

variable (e : Emission)

def undescribed (e : Emission) : Emission := { e with compiled := e.compiled.undescribed }

@[simp] theorem schema_undescribed : e.undescribed.schema = e.schema.undescribed := rfl

theorem typesUsed_undescribed : e.undescribed.typesUsed = e.typesUsed.map TypeDefinition.undescribed := by
  have found : e.schema.undescribed.type? = fun name => (e.schema.type? name).map TypeDefinition.undescribed := by
    funext name
    exact e.schema.type?_undescribed name
  rw [typesUsed, typesUsed, schema_undescribed, found, List.map_filterMap]
  rfl

theorem enumsUsed_undescribed : e.undescribed.enumsUsed = e.enumsUsed.map TypeDefinition.undescribed := by
  rw [enumsUsed, enumsUsed, typesUsed_undescribed, List.filter_map]
  congr 2
  funext type
  obtain ⟨_, _, body⟩ := type
  cases body <;> rfl

theorem inputsUsed_undescribed : e.undescribed.inputsUsed = e.inputsUsed.map TypeDefinition.undescribed := by
  rw [inputsUsed, inputsUsed, typesUsed_undescribed, List.filter_map]
  congr 2
  funext type
  obtain ⟨_, _, body⟩ := type
  cases body <;> rfl

@[simp] theorem isComposite_undescribed (field : ResponseField) :
    e.undescribed.isComposite field.undescribed = e.isComposite field := by
  rw [isComposite, isComposite, schema_undescribed, Schema.type?_undescribed, field.type_undescribed]
  cases e.schema.type? field.type.baseName with
  | none => rfl
  | some type => simp

@[simp] theorem leaf_undescribed (rename : String → String) (name : String) :
    e.undescribed.leaf rename name = e.leaf rename name := by
  rw [leaf, leaf, schema_undescribed, Schema.type?_undescribed]
  cases e.schema.type? name with
  | none => rfl
  | some type =>
    obtain ⟨_, _, body⟩ := type
    cases body <;> rfl

@[simp] theorem leafType_undescribed (style : TypeStyle) (rename : String → String) (type : TypeRef) :
    e.undescribed.leafType style rename type = e.leafType style rename type := by
  simp only [leafType, leaf_undescribed]

@[simp] theorem typenameType_undescribed (parent : String) (typenames : Option (List String)) :
    e.undescribed.typenameType parent typenames = e.typenameType parent typenames := by
  simp only [typenameType, schema_undescribed, Schema.possibleTypes_undescribed]

theorem fieldComments_undescribed (field : ResponseField) : fieldComments field.undescribed = [] := by
  have described : field.undescribed.description = none := by rw [ResponseField.undescribed_eq]
  rw [fieldComments, described]
  split <;> rfl

end Emission

namespace MemberType

theorem uncommentedAll_eq (members : List (Member MemberType)) : uncommentedAll members = members.map uncommentedOf := by
  induction members with
  | nil => rfl
  | cons member rest ih => rw [uncommentedAll, ih]; rfl

theorem commentsAll_eq (members : List (Member MemberType)) : commentsAll members = members.flatMap commentsOf := by
  induction members with
  | nil => rfl
  | cons member rest ih => rw [commentsAll, ih]; rfl

end MemberType

section Declarations

variable (allowed : String → Prop)

abbrev PlainMember : Member MemberType → Member MemberType → Prop :=
  Strips allowed MemberType.uncommentedOf MemberType.commentsOf

abbrev PlainDeclaration : Declaration → Declaration → Prop :=
  Strips allowed Declaration.uncommented Declaration.comments

abbrev PlainDeclarations : List Declaration → List Declaration → Prop :=
  StripsAll allowed Declaration.uncommented Declaration.comments

def AllowsLines : Prop := ∀ description, ∀ line ∈ commentLines description, allowed line

variable {allowed} {e : Emission} {field : ResponseField} {fields : List ResponseField}

theorem plain_record {comments : List String} {members plain : List (Member MemberType)} (name : String)
    (clean : ∀ comment ∈ comments, allowed comment)
    (same : StripsAll allowed MemberType.uncommentedOf MemberType.commentsOf members plain) :
    PlainDeclaration allowed (.record name comments members) (.record name [] plain) := by
  constructor
  · rw [Declaration.uncommented, MemberType.uncommentedAll_eq, same.stripped]
  · intro comment listed
    rw [Declaration.comments, MemberType.commentsAll_eq, List.mem_append] at listed
    exact listed.elim (clean comment) (same.clean comment)

theorem AllowsLines.fieldComments (lines : AllowsLines allowed) (field : ResponseField) :
    ∀ comment ∈ Emission.fieldComments field, allowed comment := by
  intro comment listed
  unfold Emission.fieldComments at listed
  split at listed
  · cases listed
  · exact lines _ comment listed

abbrev PlainType (allowed : String → Prop) : MemberType → MemberType → Prop :=
  Strips allowed MemberType.uncommented MemberType.comments

theorem plain_named (around : Around) (alternatives : List Leaf) :
    PlainType allowed (.named around alternatives) (.named around alternatives) := ⟨rfl, nofun⟩

theorem plain_literals (texts : List String) : PlainType allowed (.literals texts) (.literals texts) := ⟨rfl, nofun⟩

theorem plain_object {members plain : List (Member MemberType)} (around : Around)
    (same : StripsAll allowed MemberType.uncommentedOf MemberType.commentsOf members plain) :
    PlainType allowed (.object around members) (.object around plain) := by
  constructor
  · rw [MemberType.uncommented, MemberType.uncommentedAll_eq, same.stripped]
  · intro comment listed
    rw [MemberType.comments, MemberType.commentsAll_eq] at listed
    exact same.clean comment listed

theorem plain_member {comments : List String} {type plain : MemberType}
    (clean : ∀ comment ∈ comments, allowed comment) (same : PlainType allowed type plain) (name : String)
    (isOptional : Bool) : PlainMember allowed ⟨comments, name, isOptional, type⟩ ⟨[], name, isOptional, plain⟩ := by
  constructor
  · rw [MemberType.uncommentedOf, same.stripped]
  · intro comment listed
    rw [MemberType.commentsOf, List.mem_append] at listed
    exact listed.elim (clean comment) (same.clean comment)

theorem plain_enum {comments : List String} {values : List (Option String × String)}
    (clean : ∀ comment ∈ comments, allowed comment)
    (ofValues : ∀ value ∈ values, ∀ comment ∈ value.1, allowed comment) (name : String) :
    PlainDeclaration allowed (.enum name comments values) (.enum name [] (values.map fun value => (none, value.2))) := by
  constructor
  · rfl
  · intro comment listed
    rw [Declaration.comments, List.mem_append, List.mem_flatMap] at listed
    rcases listed with own | ⟨value, member, found⟩
    · exact clean comment own
    · exact ofValues value member comment (Option.mem_toList.mp found)

theorem plain_union (name : String) (alternatives : List String) :
    PlainDeclaration allowed (.union name alternatives) (.union name alternatives) := ⟨rfl, nofun⟩

theorem plain_methods (name : String) (methods : List Method) :
    PlainDeclaration allowed (.methods name methods) (.methods name methods) := ⟨rfl, nofun⟩

theorem alike_leafType (style : TypeStyle) (rename : String → String) (type : TypeRef) :
    Alike (PlainType allowed) (e.leafType style rename type) (e.undescribed.leafType style rename type) := by
  rw [Emission.leafType_undescribed, Emission.leafType]
  exact alike_bind _ fun around => .ok (plain_named around _)

theorem alike_inputMember (style : TypeStyle) (rename : String → String) {comments : List String}
    (clean : ∀ comment ∈ comments, allowed comment) (name : String) (type : TypeRef) :
    Alike (PlainMember allowed) (e.inputMember style rename comments name type)
      (e.undescribed.inputMember style rename [] name type) := by
  exact (alike_leafType style rename type).map fun _ _ same => plain_member clean same name _

theorem alike_variableRecords (style : TypeStyle) (rename : String → String) (operation : CompiledOperation) :
    Alike (PlainDeclarations allowed) (e.variableRecords style rename operation)
      (e.undescribed.variableRecords style rename operation.undescribed) := by
  have each : Alike (StripsAll allowed MemberType.uncommentedOf MemberType.commentsOf)
      (operation.parameters.mapM fun v => e.inputMember style rename [] v.name v.type)
      ((operation.parameters.map id).mapM fun v => e.undescribed.inputMember style rename [] v.name v.type) :=
    alike_mapM fun v _ => alike_inputMember style rename nofun v.name v.type
  rw [List.map_id] at each
  unfold Emission.variableRecords
  have parameters : operation.undescribed.parameters = operation.parameters := rfl
  rw [parameters]
  split
  · exact .ok .nil
  · exact each.map fun members plain same => .cons (plain_record _ nofun same) .nil

namespace Emission

theorem alike_inputRecord (lines : AllowsLines allowed) (style : TypeStyle) (rename : String → String)
    {comments : InputValue → List String} (clean : ∀ field, ∀ comment ∈ comments field, allowed comment)
    (bare : ∀ field : InputValue, comments field.undescribed = []) (type : TypeDefinition) :
    Alike (PlainDeclaration allowed) (e.inputRecord style rename comments type)
      (e.undescribed.inputRecord style rename comments type.undescribed) := by
  have members : Alike (StripsAll allowed MemberType.uncommentedOf MemberType.commentsOf)
      (type.inputFields.mapM fun field => e.inputMember style rename (comments field) field.name field.type)
      ((type.inputFields.map InputValue.undescribed).mapM fun field =>
        e.undescribed.inputMember style rename (comments field) field.name field.type) := by
    apply alike_mapM
    intro field _
    rw [bare field]
    exact alike_inputMember style rename (clean field) field.name field.type
  unfold inputRecord
  rw [type.inputFields_undescribed]
  exact members.map fun _ _ same => plain_record _ (lines type.description) same

theorem plain_enumOf (lines : AllowsLines allowed) (rename : String → String)
    {comment : EnumValue → Option String} (bare : ∀ value : EnumValue, comment value.undescribed = none)
    {type : TypeDefinition} (ofValues : ∀ value ∈ type.values, ∀ shown ∈ comment value, allowed shown) :
    PlainDeclaration allowed (enumOf rename comment type) (enumOf rename comment type.undescribed) := by
  have clean : ∀ entry ∈ type.values.map fun value => (comment value, value.name),
      ∀ shown ∈ entry.1, allowed shown := by
    intro entry listed shown found
    obtain ⟨value, member, rfl⟩ := List.mem_map.mp listed
    exact ofValues value member shown found
  have plain := plain_enum (lines type.description) clean (rename type.name)
  have values : type.undescribed.values.map (fun value => (comment value, value.name)) =
      (type.values.map fun value => (comment value, value.name)).map fun entry => (none, entry.2) := by
    rw [type.values_undescribed, List.map_map, List.map_map]
    apply List.map_congr_left
    intro value _
    exact Prod.ext (bare value) rfl
  unfold enumOf
  rw [values]
  exact plain

def AlikeGroups (allowed : String → Prop) (group twin : Grouping) (fields : List ResponseField) : Prop :=
  ∀ path parent typenames, Alike (PlainDeclarations allowed) (group path parent typenames fields)
    (twin path parent typenames (fields.map ResponseField.undescribed))

variable {group twin : Grouping}

theorem alike_nestedWith {declare other : List String → ResponseField → Except Error (List Declaration)}
    (each : ∀ field ∈ fields, ∀ path,
      Alike (PlainDeclarations allowed) (declare path field) (other path field.undescribed)) (path : List String) :
    Alike (PlainDeclarations allowed) (e.nestedWith declare path fields)
      (e.undescribed.nestedWith other path (fields.map ResponseField.undescribed)) := by
  apply alike_gather
  intro field member
  rw [isComposite_undescribed, ResponseField.responseName_undescribed]
  split
  · exact each field member _
  · exact .ok .nil

theorem alike_shapesWith (ofFields : AlikeGroups allowed group twin field.fields)
    (ofCases : ∀ typeCase ∈ field.cases, AlikeGroups allowed group twin typeCase.fields) (path : List String) :
    Alike (PlainDeclarations allowed) (e.shapesWith group path field)
      (e.undescribed.shapesWith twin path field.undescribed) := by
  have other : Alike (PlainDeclarations allowed) (e.otherWith group path field)
      (e.undescribed.otherWith twin path field.undescribed) := by
    simp only [otherWith, schema_undescribed, ResponseField.any_propertySets_undescribed, field.fields_undescribed,
      field.type_undescribed, ResponseField.uncovered_undescribed]
    split
    · exact ofFields _ _ _
    · exact .ok .nil
  unfold shapesWith
  rw [field.cases_undescribed]
  refine Alike.bind (alike_gather fun typeCase member => ?_) fun _ _ first => other.map fun _ _ => first.append
  rw [ResponseField.shape_undescribedCase, ResponseField.condition_undescribedCase,
    ResponseField.fields_undescribedCase, schema_undescribed, ResponseField.typenames_undescribed]
  exact ofCases typeCase member _ _ _

theorem alike_operationWith (style : TypeStyle) (rename : String → String) {operation : CompiledOperation}
    (groups : AlikeGroups allowed group twin operation.fields) :
    Alike (PlainDeclarations allowed) (e.operationWith style rename group operation)
      (e.undescribed.operationWith style rename twin operation.undescribed) := by
  have fields : operation.undescribed.fields = operation.fields.map ResponseField.undescribed :=
    ResponseField.undescribedAll_eq operation.fields
  have parameters : Alike (PlainDeclarations allowed) (e.variableRecords style rename operation)
      (e.undescribed.variableRecords style rename operation.undescribed) := alike_variableRecords style rename operation
  unfold operationWith
  dsimp only
  rw [fields]
  exact parameters.bind fun _ _ first => (groups _ _ _).map fun _ _ => first.append

structure AlikePlans (allowed : String → Prop) (e : Emission) (plan twin : Plan) : Prop where
  same : twin.style = plan.style ∧ twin.rename = plan.rename ∧ twin.ofValue = plan.ofValue ∧ twin.ofInput = plan.ofInput
  values : ∀ type ∈ e.enumsUsed, ∀ value ∈ type.values, ∀ comment ∈ plan.ofValue value, allowed comment
  bareValues : ∀ value : EnumValue, plan.ofValue value.undescribed = none
  inputs : ∀ field, ∀ comment ∈ plan.ofInput field, allowed comment
  bareInputs : ∀ field : InputValue, plan.ofInput field.undescribed = []
  groups : ∀ fields, AlikeGroups allowed plan.group twin.group fields
  fragments : ∀ fragment : CompiledFragment,
    Alike (PlainDeclarations allowed) (plan.fragment fragment) (twin.fragment fragment.undescribed)

theorem AlikePlans.declareAll {plan other : Plan} (plans : AlikePlans allowed e plan other)
    (lines : AllowsLines allowed) :
    Alike (PlainDeclarations allowed) (e.declareAll plan) (e.undescribed.declareAll other) := by
  have operations : e.undescribed.compiled.operations = e.compiled.operations.map CompiledOperation.undescribed := rfl
  have fragments : e.undescribed.compiled.fragments = e.compiled.fragments.map CompiledFragment.undescribed := rfl
  obtain ⟨styles, renames, ofValues, ofInputs⟩ := plans.same
  have enums : PlainDeclarations allowed (e.enumsUsed.map (enumOf plan.rename plan.ofValue))
      ((e.enumsUsed.map TypeDefinition.undescribed).map (enumOf plan.rename plan.ofValue)) :=
    stripsAll_map fun type used => plain_enumOf lines plan.rename plans.bareValues (plans.values type used)
  unfold Emission.declareAll
  rw [e.inputsUsed_undescribed, e.enumsUsed_undescribed, operations, fragments, styles, renames, ofValues, ofInputs]
  have inputs := alike_mapM fun type (_ : type ∈ e.inputsUsed) =>
    alike_inputRecord (e := e) lines plan.style plan.rename plans.inputs plans.bareInputs type
  have operations := alike_gather fun operation (_ : operation ∈ e.compiled.operations) =>
    alike_operationWith (e := e) plan.style plan.rename (plans.groups operation.fields)
  refine inputs.bind fun _ _ ofInputs => operations.bind fun _ _ ofOperations => ?_
  refine (alike_gather fun fragment _ => plans.fragments fragment).map fun _ _ ofFragments => ?_
  exact ((enums.append ofInputs).append ofOperations).append ofFragments

end Emission

namespace Flow

theorem alike_member (lines : AllowsLines allowed) (path : List String) (parent : String)
    (typenames : Option (List String)) (field : ResponseField) :
    Alike (PlainMember allowed) (member e path parent typenames field)
      (member e.undescribed path parent typenames field.undescribed) := by
  have clean := lines.fieldComments field
  simp only [member, ResponseField.isTypename_undescribed, ResponseField.type_undescribed,
    ResponseField.responseName_undescribed, Emission.typenameType_undescribed, Emission.isComposite_undescribed,
    Emission.fieldComments_undescribed]
  split
  · exact .ok (plain_member clean (plain_literals _) _ _)
  · split
    · exact alike_bind _ fun around => .ok (plain_member clean (plain_named around _) _ _)
    · exact (alike_leafType style id field.type).map fun _ _ same => plain_member clean same _ _

theorem alike_group (lines : AllowsLines allowed)
    (each : ∀ field ∈ fields, ∀ path,
      Alike (PlainDeclarations allowed) (selection e path field) (selection e.undescribed path field.undescribed)) :
    Emission.AlikeGroups allowed (group e) (group e.undescribed) fields := by
  intro path parent typenames
  have recorded : Alike (PlainDeclaration allowed) (record e path parent typenames fields)
      (record e.undescribed path parent typenames (fields.map ResponseField.undescribed)) :=
    (alike_mapM fun field _ => alike_member lines path parent typenames field).map
      fun _ _ same => plain_record _ nofun same
  unfold group
  rw [nested_eq, nested_eq]
  exact recorded.bind fun _ _ own => (Emission.alike_nestedWith each path).map fun _ _ below => .cons own below

theorem alike_selection (lines : AllowsLines allowed) (field : ResponseField) (path : List String) :
    Alike (PlainDeclarations allowed) (selection e path field) (selection e.undescribed path field.undescribed) := by
  induction field using ResponseField.induction_below generalizing path with
  | step field below belowCases =>
    have sets : field.undescribed.propertySets e.undescribed.schema = [] ↔ field.propertySets e.schema = [] :=
      field.propertySets_undescribed_eq_nil_iff e.schema
    by_cases uniform : field.propertySets e.schema = []
    · rw [selection_of_uniform uniform, selection_of_uniform (sets.mpr uniform), field.fields_undescribed,
        field.type_undescribed]
      exact alike_group lines below _ _ _
    · have chosen : choice path field.undescribed (field.undescribed.propertySets e.undescribed.schema) =
          choice path field (field.propertySets e.schema) := by
        simp [choice, ResponseField.propertySets_undescribed, Function.comp_def]
      rw [selection_of_shapes uniform, selection_of_shapes fun empty => uniform (sets.mp empty), chosen]
      have shapes := Emission.alike_shapesWith (e := e) (alike_group lines below)
        (fun typeCase member => alike_group lines (belowCases typeCase member)) path
      exact shapes.map fun _ _ same => .cons (plain_union _ _) same

theorem alike_declarations (lines : AllowsLines allowed) (e : Emission) :
    Alike (PlainDeclarations allowed) (declarations e) (declarations e.undescribed) := by
  rw [declarations_eq, declarations_eq]
  refine Emission.AlikePlans.declareAll ⟨⟨rfl, rfl, rfl, rfl⟩, ?_, fun _ => rfl, ?_, fun _ => rfl, ?_, ?_⟩ lines
  · exact fun _ _ _ _ => nofun
  · exact fun _ => nofun
  · exact fun fields => alike_group lines fun field _ => alike_selection lines field
  · intro fragment
    change Alike _ (selection e _ fragment.toField) (selection e.undescribed _ fragment.undescribed.toField)
    rw [fragment.toField_undescribed]
    exact alike_selection lines fragment.toField _

end Flow

namespace TypeScript

def AllowsValues (allowed : String → Prop) (e : Emission) : Prop :=
  ∀ type ∈ e.enumsUsed, ∀ value ∈ type.values, ∀ description ∈ value.description, allowed (trim description)

theorem setNames_undescribed (path : List String) (field : ResponseField) (sets : List PropertySet) :
    setNames e.undescribed path field.undescribed (sets.map PropertySet.undescribed) = setNames e path field sets := by
  simp only [setNames, List.map_map, Function.comp_def, ResponseField.setName_undescribed]
  rfl

theorem alike_memberType (path : List String) (parent : String)
    (typenames : Option (List String)) (field : ResponseField)
    (below : ∀ path parent typenames, Alike (StripsAll allowed MemberType.uncommentedOf MemberType.commentsOf)
      (members e path parent typenames field.fields)
      (members e.undescribed path parent typenames (field.fields.map ResponseField.undescribed))) :
    Alike (PlainType allowed) (memberType e path parent typenames field)
      (memberType e.undescribed path parent typenames field.undescribed) := by
  simp only [memberType, ResponseField.isTypename_undescribed, ResponseField.type_undescribed,
    ResponseField.responseName_undescribed, Emission.typenameType_undescribed, Emission.isComposite_undescribed,
    Emission.schema_undescribed, ResponseField.propertySets_undescribed, field.fields_undescribed]
  split
  · exact .ok (plain_literals _)
  · split
    · exact alike_leafType style (declarationName e) field.type
    · refine alike_bind _ fun around => ?_
      cases sets : field.propertySets e.schema with
      | nil => exact (below _ _ _).map fun _ _ same => plain_object around same
      | cons first rest =>
        have names := setNames_undescribed (e := e) (path ++ [field.responseName]) field (first :: rest)
        change Alike _ _ (pure (MemberType.named around ((setNames e.undescribed _ field.undescribed _).map .reference)))
        rw [names]
        exact .ok (plain_named around _)

theorem alike_member (lines : AllowsLines allowed) (field : ResponseField) (path : List String) (parent : String)
    (typenames : Option (List String)) :
    Alike (PlainMember allowed) (member e path parent typenames field)
      (member e.undescribed path parent typenames field.undescribed) := by
  induction field using ResponseField.induction_below generalizing path parent typenames with
  | step field below _ =>
    rw [member_eq, member_eq, Emission.fieldComments_undescribed, ResponseField.responseName_undescribed]
    have typed : Alike (PlainType allowed) (memberType e path parent typenames field)
        (memberType e.undescribed path parent typenames field.undescribed) := by
      apply alike_memberType
      intro path parent typenames
      rw [members_eq, members_eq]
      exact alike_mapM fun child member => below child member path parent typenames
    exact typed.map fun _ _ same => plain_member (lines.fieldComments field) same _ _

theorem alike_group (lines : AllowsLines allowed)
    (each : ∀ field ∈ fields, ∀ path,
      Alike (PlainDeclarations allowed) (shapes e path field) (shapes e.undescribed path field.undescribed)) :
    Emission.AlikeGroups allowed (group e) (group e.undescribed) fields := by
  intro path parent typenames
  have recorded : Alike (PlainDeclaration allowed) (record e path parent typenames fields)
      (record e.undescribed path parent typenames (fields.map ResponseField.undescribed)) := by
    unfold record
    rw [members_eq, members_eq]
    apply (alike_mapM fun field _ => alike_member lines field path parent typenames).map
    exact fun _ _ same => plain_record _ nofun same
  unfold group
  rw [nested_eq, nested_eq]
  refine (Emission.alike_nestedWith each path).bind fun _ _ below => ?_
  exact recorded.map fun _ _ own => below.append (.cons own .nil)

theorem alike_shapes (lines : AllowsLines allowed) (field : ResponseField) (path : List String) :
    Alike (PlainDeclarations allowed) (shapes e path field) (shapes e.undescribed path field.undescribed) := by
  induction field using ResponseField.induction_below generalizing path with
  | step field below belowCases =>
    have sets : field.undescribed.propertySets e.undescribed.schema = [] ↔ field.propertySets e.schema = [] :=
      field.propertySets_undescribed_eq_nil_iff e.schema
    by_cases uniform : field.propertySets e.schema = []
    · rw [shapes_of_uniform uniform, shapes_of_uniform (sets.mpr uniform), field.fields_undescribed, nested_eq, nested_eq]
      exact Emission.alike_nestedWith below path
    · rw [shapes_of_shapes uniform, shapes_of_shapes fun empty => uniform (sets.mp empty)]
      exact Emission.alike_shapesWith (alike_group lines below)
        (fun typeCase member => alike_group lines (belowCases typeCase member)) path

theorem alike_fragmentDeclarations (lines : AllowsLines allowed) (fragment : CompiledFragment) :
    Alike (PlainDeclarations allowed) (fragmentDeclarations e fragment)
      (fragmentDeclarations e.undescribed fragment.undescribed) := by
  have fields : fragment.undescribed.fields = fragment.fields.map ResponseField.undescribed :=
    ResponseField.undescribedAll_eq fragment.fields
  have sets := fragment.toField.propertySets_undescribed e.schema
  rw [← fragment.toField_undescribed] at sets
  by_cases uniform : fragment.toField.propertySets e.schema = []
  · rw [uniform, List.map_nil, ← Emission.schema_undescribed] at sets
    rw [fragmentDeclarations_of_uniform uniform, fragmentDeclarations_of_uniform sets, fields]
    exact alike_group lines (fun field _ => alike_shapes lines field) _ _ _
  · have diverges : fragment.undescribed.toField.propertySets e.undescribed.schema ≠ [] := by
      intro empty
      exact uniform (List.map_eq_nil_iff.mp (sets.symm.trans empty))
    have names := setNames_undescribed (e := e) [fragment.name ++ "Fragment"] fragment.toField
      (fragment.toField.propertySets e.schema)
    rw [← sets, ← fragment.toField_undescribed] at names
    rw [fragmentDeclarations_of_shapes uniform, fragmentDeclarations_of_shapes diverges, ← shapes_of_shapes uniform,
      ← shapes_of_shapes diverges]
    have shaped := alike_shapes (e := e) lines fragment.toField [fragment.name ++ "Fragment"]
    rw [← fragment.toField_undescribed] at shaped
    refine shaped.map fun _ _ below => below.append (.cons ?_ .nil)
    change PlainDeclaration allowed _ (.union _ (setNames e.undescribed [fragment.name ++ "Fragment"]
      fragment.undescribed.toField (fragment.undescribed.toField.propertySets e.schema.undescribed)))
    rw [names]
    exact plain_union _ _

theorem rootDefinition?_undescribed (kind : OperationKind) (name : String) :
    rootDefinition? e.undescribed kind name = Option.map FieldDefinition.undescribed <$> rootDefinition? e kind name := by
  have onRoot : (do return (← e.schema.undescribed.root kind).field? name : Except Error (Option FieldDefinition)) =
      Option.map FieldDefinition.undescribed <$> (do return (← e.schema.root kind).field? name) := by
    rw [Schema.root_undescribed, bind_map_left, map_bind]
    congr 1
    funext root
    rw [TypeDefinition.field?_undescribed]
    rfl
  unfold rootDefinition?
  rw [Emission.schema_undescribed, Schema.rootField?_undescribed, bind_map_left, map_bind]
  congr 1
  funext found
  cases found with
  | none => exact onRoot
  | some found =>
    dsimp only [Option.map_some, Schema.RootField.undescribed]
    by_cases same : found.kind = kind
    · rw [if_pos same, if_pos same]
      rfl
    · rw [if_neg same, if_neg same]
      exact onRoot

theorem method?_undescribed (operation : CompiledOperation) :
    method? e.undescribed operation.undescribed = method? e operation := by
  have fields : operation.undescribed.fields = operation.fields.map ResponseField.undescribed :=
    ResponseField.undescribedAll_eq operation.fields
  have named (root : ResponseField) : root.undescribed.fieldName = root.fieldName := by
    rw [ResponseField.undescribed_eq]
  unfold method?
  rw [fields, List.head?_map]
  cases operation.fields.head? with
  | none => rfl
  | some root =>
    dsimp only [Option.map_some]
    rw [named, rootDefinition?_undescribed, bind_map_left]
    have kinds : operation.undescribed.kind = operation.kind := rfl
    rw [kinds]
    congr 1
    funext definition
    cases definition with
    | none => rfl
    | some definition =>
      simp only [Option.map_some, FieldDefinition.undescribed, List.mapM_map, Function.comp_def,
        Emission.leafType_undescribed, ResponseField.responseName_undescribed]
      rfl

theorem alike_methodDeclarations (kind : OperationKind) :
    Alike (PlainDeclarations allowed) (methodDeclarations e kind) (methodDeclarations e.undescribed kind) := by
  have chosen : e.undescribed.compiled.operations.filter (·.kind == kind) =
      (e.compiled.operations.filter (·.kind == kind)).map CompiledOperation.undescribed := by
    change (e.compiled.operations.map CompiledOperation.undescribed).filter _ = _
    rw [List.filter_map]
    rfl
  unfold methodDeclarations
  dsimp only
  rw [chosen, List.isEmpty_map, List.mapM_map]
  split
  · exact .ok .nil
  · have methods : method? e.undescribed ∘ CompiledOperation.undescribed = method? e := by
      funext operation
      exact method?_undescribed operation
    rw [methods]
    exact alike_bind _ fun methods => .ok (.cons (plain_methods _ _) .nil)

theorem alike_allMethods (allowed : String → Prop) (e : Emission) :
    Alike (PlainDeclarations allowed) (allMethods e) (allMethods e.undescribed) := by
  let kinds := [OperationKind.query, .mutation, .subscription]
  have each : Alike (PlainDeclarations allowed) (gather (methodDeclarations e) kinds)
      (gather (methodDeclarations e.undescribed) (kinds.map id)) :=
    alike_gather fun kind _ => alike_methodDeclarations kind
  rw [List.map_id] at each
  have synthesized : e.undescribed.synthesized = e.synthesized := rfl
  unfold allMethods
  rw [synthesized]
  split
  · exact each
  · exact .ok .nil

theorem alike_declarations (lines : AllowsLines allowed) {e : Emission} (values : AllowsValues allowed e) :
    Alike (PlainDeclarations allowed) (declarations e) (declarations e.undescribed) := by
  have plans : Emission.AlikePlans allowed e (plan e) (plan e.undescribed) := by
    refine ⟨⟨rfl, rfl, rfl, rfl⟩, ?_, fun _ => rfl, ?_, fun _ => rfl, ?_, ?_⟩
    · intro type used value member comment shown
      obtain ⟨description, described, rfl⟩ := Option.map_eq_some_iff.mp shown
      exact values type used value member description described
    · exact fun field => lines field.description
    · exact fun fields => alike_group lines fun field _ => alike_shapes lines field
    · exact alike_fragmentDeclarations lines
  rw [declarations_eq, declarations_eq]
  exact (plans.declareAll lines).bind fun _ _ first =>
    (alike_allMethods allowed e).map fun _ _ second => first.append second

end TypeScript

end Declarations

end QueryTypes
