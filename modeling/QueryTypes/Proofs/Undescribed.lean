import QueryTypes.Generation
import QueryTypes.Proofs.ExpandedTypes
import QueryTypes.Proofs.Results

namespace QueryTypes

def InputValue.undescribed (value : InputValue) : InputValue := { value with description := none }

def FieldDefinition.undescribed (field : FieldDefinition) : FieldDefinition :=
  { field with description := none, arguments := field.arguments.map InputValue.undescribed }

def EnumValue.undescribed (value : EnumValue) : EnumValue := { value with description := none }

def TypeBody.undescribed : TypeBody → TypeBody
  | .scalar => .scalar
  | .object interfaces fields => .object interfaces (fields.map FieldDefinition.undescribed)
  | .interface fields => .interface (fields.map FieldDefinition.undescribed)
  | .union members => .union members
  | .enum values => .enum (values.map EnumValue.undescribed)
  | .input fields => .input (fields.map InputValue.undescribed)

def TypeDefinition.undescribed (type : TypeDefinition) : TypeDefinition := ⟨type.name, none, type.body.undescribed⟩

def Schema.undescribed (schema : Schema) : Schema :=
  { schema with types := schema.types.map TypeDefinition.undescribed }

theorem InputValue.undescribed_undescribed (value : InputValue) : value.undescribed.undescribed = value.undescribed := rfl

theorem FieldDefinition.undescribed_undescribed (field : FieldDefinition) :
    field.undescribed.undescribed = field.undescribed := by
  simp [FieldDefinition.undescribed, InputValue.undescribed]

theorem TypeBody.undescribed_undescribed (body : TypeBody) : body.undescribed.undescribed = body.undescribed := by
  cases body <;> simp [TypeBody.undescribed, FieldDefinition.undescribed_undescribed, InputValue.undescribed, EnumValue.undescribed]

theorem TypeDefinition.undescribed_undescribed (type : TypeDefinition) :
    type.undescribed.undescribed = type.undescribed := by
  simp only [TypeDefinition.undescribed, TypeBody.undescribed_undescribed]

theorem Schema.undescribed_undescribed (schema : Schema) : schema.undescribed.undescribed = schema.undescribed := by
  simp [Schema.undescribed, TypeDefinition.undescribed_undescribed]

namespace TypeDefinition

variable (type : TypeDefinition)

@[simp] theorem name_undescribed : type.undescribed.name = type.name := rfl

@[simp] theorem isObject_undescribed : type.undescribed.isObject = type.isObject := by
  obtain ⟨_, _, body⟩ := type
  cases body <;> rfl

@[simp] theorem isComposite_undescribed : type.undescribed.isComposite = type.isComposite := by
  obtain ⟨_, _, body⟩ := type
  cases body <;> rfl

@[simp] theorem isAbstract_undescribed : type.undescribed.isAbstract = type.isAbstract := by
  obtain ⟨_, _, body⟩ := type
  cases body <;> rfl

@[simp] theorem isLeaf_undescribed : type.undescribed.isLeaf = type.isLeaf := by
  obtain ⟨_, _, body⟩ := type
  cases body <;> rfl

@[simp] theorem hasParts_undescribed : type.undescribed.hasParts = type.hasParts := by
  obtain ⟨_, _, body⟩ := type
  cases body <;> rfl

@[simp] theorem isInput_undescribed : type.undescribed.isInput = type.isInput := by
  obtain ⟨_, _, body⟩ := type
  cases body <;> rfl

@[simp] theorem isDeclared_undescribed : type.undescribed.isDeclared = type.isDeclared := by
  obtain ⟨_, _, body⟩ := type
  cases body <;> rfl

theorem fields_undescribed : type.undescribed.fields = type.fields.map FieldDefinition.undescribed := by
  obtain ⟨_, _, body⟩ := type
  cases body <;> rfl

theorem inputFields_undescribed : type.undescribed.inputFields = type.inputFields.map InputValue.undescribed := by
  obtain ⟨_, _, body⟩ := type
  cases body <;> rfl

theorem values_undescribed : type.undescribed.values = type.values.map EnumValue.undescribed := by
  obtain ⟨_, _, body⟩ := type
  cases body <;> rfl

theorem field?_undescribed (name : String) :
    type.undescribed.field? name = (type.field? name).map FieldDefinition.undescribed := by
  rw [field?, fields_undescribed, List.find?_map]
  rfl

end TypeDefinition

namespace Schema

variable (schema : Schema)

theorem type?_undescribed (name : String) :
    schema.undescribed.type? name = (schema.type? name).map TypeDefinition.undescribed := by
  rw [type?, undescribed, List.find?_map]
  rfl

theorem concreteOf_undescribed (name : String) (type : TypeDefinition) :
    concreteOf name type.undescribed = concreteOf name type := by
  obtain ⟨_, _, body⟩ := type
  cases body <;> rfl

@[simp] theorem listed_undescribed (name : String) : schema.undescribed.listed name = schema.listed name := by
  simp only [listed, undescribed, List.flatMap_map, concreteOf_undescribed]

@[simp] theorem possibleTypes_undescribed (name : String) :
    schema.undescribed.possibleTypes name = schema.possibleTypes name := by
  rw [possibleTypes, possibleTypes, type?_undescribed]
  cases schema.type? name with
  | none => rfl
  | some type => simp

@[simp] theorem isSupertype_undescribed (super sub : TypeDefinition) :
    schema.undescribed.isSupertype super.undescribed sub.undescribed = schema.isSupertype super sub := by
  simp [isSupertype, isPossible]

theorem root_undescribed (kind : OperationKind) :
    schema.undescribed.root kind = TypeDefinition.undescribed <$> schema.root kind := by
  have names : schema.undescribed.rootName? kind = schema.rootName? kind := by
    cases kind <;> rfl
  have found : (schema.rootName? kind).bind schema.undescribed.type? =
      ((schema.rootName? kind).bind schema.type?).map TypeDefinition.undescribed := by
    cases schema.rootName? kind with
    | none => rfl
    | some name => exact schema.type?_undescribed name
  unfold root
  rw [names, found]
  cases (schema.rootName? kind).bind schema.type? <;> cases kind <;> rfl

def RootField.undescribed (found : RootField) : RootField :=
  ⟨found.kind, found.field.undescribed, found.returns.map TypeDefinition.undescribed⟩

theorem rootField?_undescribed (name : String) :
    schema.undescribed.rootField? name = Option.map RootField.undescribed <$> schema.rootField? name := by
  unfold rootField?
  split
  · rfl
  · change Except.ok _ = Except.ok (Option.map _ _)
    rw [List.map_findSome?]
    congr 2
    funext kind
    rw [Function.comp_apply, root_undescribed]
    cases schema.root kind with
    | error fault => rfl
    | ok root =>
      change (root.undescribed.field? name).bind _ = Option.map _ ((root.field? name).bind _)
      rw [TypeDefinition.field?_undescribed]
      cases root.field? name with
      | none => rfl
      | some field =>
        change some (RootField.mk _ _ (schema.undescribed.type? _)) = _
        rw [type?_undescribed]
        rfl

/-- The fields on the schema itself keep their descriptions. -/
theorem field?_undescribed (parent : TypeDefinition) (name : String) :
    (schema.undescribed.field? parent.undescribed name).map FieldDefinition.undescribed =
      (schema.field? parent name).map FieldDefinition.undescribed := by
  have query : schema.undescribed.query = schema.query := rfl
  simp only [field?, TypeDefinition.name_undescribed, TypeDefinition.isComposite_undescribed,
    TypeDefinition.field?_undescribed, query]
  split
  · rfl
  · split
    · rfl
    · split
      · rfl
      · rw [Option.map_map]
        congr 1
        ext field : 1
        exact field.undescribed_undescribed

variable {schema} {parent : TypeDefinition} {name : String}

theorem field?_undescribed_eq_none (absent : schema.field? parent name = none) :
    schema.undescribed.field? parent.undescribed name = none := by
  have same := schema.field?_undescribed parent name
  rw [absent] at same
  exact Option.map_eq_none_iff.mp same

theorem exists_field?_undescribed {field : FieldDefinition} (found : schema.field? parent name = some field) :
    ∃ twin, schema.undescribed.field? parent.undescribed name = some twin ∧
      twin.undescribed = field.undescribed := by
  have same := schema.field?_undescribed parent name
  rw [found] at same
  exact Option.map_eq_some_iff.mp same

end Schema

theorem FieldDefinition.type_eq_of_undescribed {field twin : FieldDefinition}
    (same : twin.undescribed = field.undescribed) : twin.type = field.type :=
  (congrArg FieldDefinition.type same :)

namespace Validation

variable (v : Validation)

def undescribed (v : Validation) : Validation := { v with schema := v.schema.undescribed }

theorem overlap_undescribed (a b : TypeDefinition) :
    v.undescribed.overlap a.undescribed b.undescribed = v.overlap a b := by
  simp [overlap, undescribed]

theorem spreadFaults_undescribed (parent condition : TypeDefinition) (fault : Diagnostic) :
    v.undescribed.spreadFaults parent.undescribed condition.undescribed fault =
      v.spreadFaults parent condition fault := by
  simp only [spreadFaults, TypeDefinition.isComposite_undescribed, overlap_undescribed]

theorem composite_undescribed (name : String) (position : Position) :
    v.undescribed.composite name position = TypeDefinition.undescribed <$> v.composite name position := by
  unfold composite
  rw [undescribed, Schema.type?_undescribed]
  cases v.schema.type? name with
  | none => rfl
  | some type =>
    dsimp only [Option.map_some]
    rw [TypeDefinition.isComposite_undescribed]
    split <;> rfl

theorem namedSpreadFaults_undescribed (parent : TypeDefinition) (spread : FragmentSpread) :
    v.undescribed.namedSpreadFaults parent.undescribed spread = v.namedSpreadFaults parent spread := by
  have conditions : v.undescribed.condition? spread.name = v.condition? spread.name := rfl
  unfold namedSpreadFaults
  rw [conditions]
  cases v.condition? spread.name with
  | none => rfl
  | some name =>
    dsimp only
    rw [undescribed, Schema.type?_undescribed]
    cases v.schema.type? name with
    | none => rfl
    | some condition => exact v.spreadFaults_undescribed parent condition _

mutual
theorem selectionFaults_undescribed (parent : TypeDefinition) : (selection : Selection) →
    v.undescribed.selectionFaults parent.undescribed selection = v.selectionFaults parent selection
  | .field head span selections => by
    have names : v.undescribed.nameFaults head = v.nameFaults head := rfl
    rw [selectionFaults, selectionFaults, names]
    congr 1
    cases found : v.schema.field? parent head.name with
    | none =>
      have absent : v.undescribed.schema.field? parent.undescribed head.name = none :=
        Schema.field?_undescribed_eq_none found
      rw [absent]
      rfl
    | some definition =>
      obtain ⟨twin, foundTwin, same⟩ := Schema.exists_field?_undescribed found
      have looked : v.undescribed.schema.field? parent.undescribed head.name = some twin := foundTwin
      have known : v.undescribed.schema.type? definition.type.baseName =
          (v.schema.type? definition.type.baseName).map TypeDefinition.undescribed :=
        v.schema.type?_undescribed _
      rw [looked]
      dsimp only
      rw [FieldDefinition.type_eq_of_undescribed same, known]
      cases v.schema.type? definition.type.baseName with
      | none => rfl
      | some type =>
        simp only [Option.map_some, TypeDefinition.isLeaf_undescribed, TypeDefinition.isComposite_undescribed,
          selectionsFaults_undescribed type selections]
  | .inline head span selections => by
    rw [selectionFaults, selectionFaults]
    cases head.condition with
    | none =>
      dsimp only
      rw [selectionsFaults_undescribed parent selections, spreadFaults_undescribed]
      rfl
    | some name =>
      dsimp only
      rw [composite_undescribed]
      cases v.composite name head.position with
      | error fault => rfl
      | ok condition =>
        change v.undescribed.spreadFaults parent.undescribed condition.undescribed _ ++
          v.undescribed.selectionsFaults condition.undescribed selections = _
        rw [selectionsFaults_undescribed condition selections, spreadFaults_undescribed]
        rfl
  | .spread spread => by
    rw [selectionFaults, selectionFaults]
    exact v.namedSpreadFaults_undescribed parent spread

theorem selectionsFaults_undescribed (parent : TypeDefinition) : (selections : List Selection) →
    v.undescribed.selectionsFaults parent.undescribed selections = v.selectionsFaults parent selections
  | [] => rfl
  | selection :: rest => by
    rw [selectionsFaults, selectionsFaults, selectionFaults_undescribed parent selection,
      selectionsFaults_undescribed parent rest]
end

theorem operationFaults_undescribed (earlier : List String) (operation : Operation) :
    v.undescribed.operationFaults earlier operation = v.operationFaults earlier operation := by
  have roots : v.undescribed.schema.root operation.kind =
      TypeDefinition.undescribed <$> v.schema.root operation.kind := v.schema.root_undescribed _
  have inputs : v.undescribed.variableFaults = v.variableFaults := by
    funext definition
    unfold variableFaults
    rw [undescribed, Schema.type?_undescribed]
    cases v.schema.type? definition.type.baseName <;> simp
  unfold operationFaults
  rw [inputs, roots]
  cases v.schema.root operation.kind with
  | error fault => rfl
  | ok root =>
    change _ ++ v.undescribed.selectionsFaults root.undescribed operation.selectionSet.items = _
    rw [selectionsFaults_undescribed]

theorem fragmentFaults_undescribed (earlier : List String) (fragment : Fragment) :
    v.undescribed.fragmentFaults earlier fragment = v.fragmentFaults earlier fragment := by
  unfold fragmentFaults
  rw [composite_undescribed]
  congr 1
  cases v.composite fragment.condition fragment.position with
  | error fault => rfl
  | ok parent => exact v.selectionsFaults_undescribed parent fragment.selectionSet.items

theorem definitionsFaults_undescribed (operations fragments : List String) (definitions : List Definition) :
    v.undescribed.definitionsFaults operations fragments definitions =
      v.definitionsFaults operations fragments definitions := by
  induction definitions generalizing operations fragments with
  | nil => rfl
  | cons definition rest ih =>
    cases definition with
    | operation operation => rw [definitionsFaults, definitionsFaults, operationFaults_undescribed, ih]
    | fragment fragment => rw [definitionsFaults, definitionsFaults, fragmentFaults_undescribed, ih]

end Validation

theorem Document.validate_undescribed (document : Document) (schema : Schema) (addsTypename : Bool) :
    document.validate schema.undescribed addsTypename = document.validate schema addsTypename := by
  have faults : document.faults schema.undescribed addsTypename = document.faults schema addsTypename :=
    Validation.definitionsFaults_undescribed ⟨schema, _, addsTypename⟩ [] [] document.definitions
  unfold validate
  rw [faults]

namespace Discriminator

variable (schema : Schema)

theorem fieldType?_undescribed (parent : Option TypeDefinition) (name : String) :
    fieldType? schema.undescribed (parent.map TypeDefinition.undescribed) name =
      (fieldType? schema parent name).map TypeDefinition.undescribed := by
  cases parent with
  | none => rfl
  | some parent =>
    change (schema.undescribed.field? parent.undescribed name).bind _ =
      ((schema.field? parent name).bind _).map TypeDefinition.undescribed
    cases found : schema.field? parent name with
    | none =>
      rw [Schema.field?_undescribed_eq_none found]
      rfl
    | some definition =>
      obtain ⟨twin, foundTwin, same⟩ := Schema.exists_field?_undescribed found
      rw [foundTwin, Option.bind_some, Option.bind_some, FieldDefinition.type_eq_of_undescribed same]
      exact schema.type?_undescribed _

theorem conditionType?_undescribed (parent : Option TypeDefinition) (head : InlineHead) :
    conditionType? schema.undescribed (parent.map TypeDefinition.undescribed) head =
      (conditionType? schema parent head).map TypeDefinition.undescribed := by
  unfold conditionType?
  cases head.condition with
  | none => rfl
  | some name => exact schema.type?_undescribed name

theorem place_undescribed (parent : Option TypeDefinition) (position : Position) (selections : List Selection) :
    place schema.undescribed (parent.map TypeDefinition.undescribed) position selections =
      place schema parent position selections := by
  unfold place
  cases parent <;> rfl

mutual
theorem addBelow_undescribed (parent : Option TypeDefinition) : (selection : Selection) →
    addBelow schema.undescribed (parent.map TypeDefinition.undescribed) selection = addBelow schema parent selection
  | .field head span selections => by
    rw [addBelow, addBelow, fieldType?_undescribed, addBelowAll_undescribed _ selections, place_undescribed]
  | .inline head span selections => by
    rw [addBelow, addBelow, conditionType?_undescribed, addBelowAll_undescribed _ selections, place_undescribed]
  | .spread spread => rfl

theorem addBelowAll_undescribed (parent : Option TypeDefinition) : (selections : List Selection) →
    addBelowAll schema.undescribed (parent.map TypeDefinition.undescribed) selections =
      addBelowAll schema parent selections
  | [] => rfl
  | selection :: rest => by
    rw [addBelowAll, addBelowAll, addBelow_undescribed parent selection, addBelowAll_undescribed parent rest]
end

theorem addToSet_undescribed (parent : Option TypeDefinition) (set : SelectionSet) :
    addToSet schema.undescribed (parent.map TypeDefinition.undescribed) set = addToSet schema parent set := by
  rw [addToSet, addToSet, addBelowAll_undescribed, place_undescribed]

theorem addToDefinition_undescribed (definition : Definition) :
    addToDefinition schema.undescribed definition = addToDefinition schema definition := by
  cases definition with
  | operation operation =>
    rw [addToDefinition, addToDefinition, Schema.root_undescribed]
    cases schema.root operation.kind with
    | error fault => rfl
    | ok root =>
      have set := addToSet_undescribed schema (some root) operation.selectionSet
      exact congrArg (fun set => Except.ok (Definition.operation { operation with selectionSet := set })) set
  | fragment fragment =>
    rw [addToDefinition, addToDefinition, Schema.type?_undescribed, addToSet_undescribed]

end Discriminator

theorem Document.withDiscriminators_undescribed (document : Document) (schema : Schema) :
    document.withDiscriminators schema.undescribed = document.withDiscriminators schema := by
  unfold withDiscriminators
  rw [mapM_congr fun definition _ => Discriminator.addToDefinition_undescribed schema definition]

namespace Schema

variable (schema : Schema)

theorem needsNoArguments_undescribed (field : FieldDefinition) :
    needsNoArguments field.undescribed = needsNoArguments field := by
  simp only [needsNoArguments, FieldDefinition.undescribed, List.any_map]
  rfl

theorem expandable_undescribed (type : TypeDefinition) : expandable type.undescribed = expandable type := by
  have listed (fields : List FieldDefinition) :
      ((fields.map FieldDefinition.undescribed).filter needsNoArguments).map
          (fun field => (field.name, field.type.baseName)) =
        (fields.filter needsNoArguments).map fun field => (field.name, field.type.baseName) := by
    have needs : needsNoArguments ∘ FieldDefinition.undescribed = needsNoArguments := by
      funext field
      exact needsNoArguments_undescribed field
    rw [List.filter_map, List.map_map, needs]
    rfl
  obtain ⟨name, description, body⟩ := type
  cases body with
  | scalar => rfl
  | object interfaces fields => exact listed fields
  | interface fields => exact listed fields
  | union members => rfl
  | enum values => rfl
  | input fields =>
    change (fields.map InputValue.undescribed).map _ = fields.map _
    rw [List.map_map]
    rfl

variable {schema}

theorem expand_undescribed (path : List String) (name : String) :
    schema.undescribed.expand path name = schema.expand path name := by
  induction path using schema.path_induction generalizing name with
  | step path deeper =>
    have twin {type : TypeDefinition} (found : schema.type? name = some type) :
        schema.undescribed.type? name = some type.undescribed := by
      rw [type?_undescribed, found]
      rfl
    rcases leaf_or_union_or_hasParts schema name with leaf | ⟨type, members, found, body⟩ | ⟨type, found, hasParts⟩
    · have twinLeaf : ∀ type, schema.undescribed.type? name = some type → type.isLeaf = true := by
        intro type found
        rw [type?_undescribed] at found
        obtain ⟨described, known, rfl⟩ := Option.map_eq_some_iff.mp found
        rw [TypeDefinition.isLeaf_undescribed]
        exact leaf described known
      rw [expand_of_leaf leaf, expand_of_leaf twinLeaf]
    · have twinBody : type.undescribed.body = .union members := by simp [TypeDefinition.undescribed, TypeBody.undescribed, body]
      rw [expand_of_union found body, expand_of_union (twin found) twinBody]
    have twinParts : type.undescribed.hasParts = true := by rwa [TypeDefinition.hasParts_undescribed]
    have named := type.name_undescribed
    by_cases seen : type.name ∈ path
    · rw [expand_of_mem found hasParts seen, expand_of_mem (twin found) twinParts (named ▸ seen)]
    · rw [expand_of_notMem found hasParts seen, expand_of_notMem (twin found) twinParts (named ▸ seen),
        expandable_undescribed, named]
      simp only [deeper name type found seen]

theorem operationText_undescribed (schema : Schema) (kind : OperationKind) (name : String) (field : FieldDefinition) :
    schema.undescribed.operationText kind name field.undescribed = schema.operationText kind name field := by
  unfold operationText
  simp only [FieldDefinition.undescribed, expand_undescribed, List.mapM_map, List.map_map]
  rfl

theorem rootOperations_name_undescribed (used : List String) (fields : List (OperationKind × FieldDefinition)) :
    rootOperations.name used (fields.map fun entry => (entry.1, entry.2.undescribed)) =
      (rootOperations.name used fields).map fun entry => (entry.1, entry.2.1, entry.2.2.undescribed) := by
  induction fields generalizing used with
  | nil => rfl
  | cons entry rest ih =>
    obtain ⟨kind, field⟩ := entry
    have named : field.undescribed.name = field.name := rfl
    rw [List.map_cons, rootOperations.name, rootOperations.name, named]
    by_cases taken : field.name ∈ used
    · rw [if_pos taken, if_pos taken]
      dsimp only
      rw [ih]
      rfl
    · rw [if_neg taken, if_neg taken, ih]
      rfl

theorem rootOperations_undescribed (schema : Schema) :
    schema.undescribed.rootOperations =
      schema.rootOperations.map fun entry => (entry.1, entry.2.1, entry.2.2.undescribed) := by
  unfold rootOperations
  dsimp only
  rw [← rootOperations_name_undescribed, List.map_flatMap]
  congr 2
  funext kind
  rw [root_undescribed]
  cases schema.root kind with
  | error fault => rfl
  | ok root =>
    change root.undescribed.fields.map _ = (root.fields.map _).map _
    rw [TypeDefinition.fields_undescribed, List.map_map, List.map_map]
    rfl

theorem defaultDocument_undescribed (schema : Schema) :
    schema.undescribed.defaultDocument = schema.defaultDocument := by
  unfold defaultDocument
  rw [rootOperations_undescribed, List.mapM_map]
  simp only [Function.comp_def, operationText_undescribed, Document.withDiscriminators_undescribed]

theorem validDocument_undescribed (schema : Schema) (document : Option Document) (target : Target) :
    schema.undescribed.validDocument document target = schema.validDocument document target := by
  cases document with
  | none => simp only [validDocument, defaultDocument_undescribed, Document.validate_undescribed]
  | some document => simp only [validDocument, Document.validate_undescribed]

end Schema

end QueryTypes
