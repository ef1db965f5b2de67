import QueryTypes.Proofs.SchemaTypes

namespace QueryTypes

namespace TypeDefinition

def isOutput (type : TypeDefinition) : Bool := type.isLeaf || type.isComposite

def isInterface (type : TypeDefinition) : Bool := type.body matches .interface _

theorem isLeaf_of_isOutput {type : TypeDefinition} (output : type.isOutput)
    (simple : type.isComposite = false) : type.isLeaf := by
  simpa [isOutput, simple] using output

theorem isComposite_of_isObject {type : TypeDefinition} (object : type.isObject) :
    type.isComposite := by
  unfold isObject at object
  unfold isComposite
  split at object
  · rename_i body
    simp [body]
  · cases object

theorem members_eq_nil_of_isInterface {type : TypeDefinition} (isInterface : type.isInterface) :
    type.members = [] := by
  unfold TypeDefinition.isInterface at isInterface
  split at isInterface
  · rename_i body
    simp [members, body]
  · cases isInterface

/-- An abstract type is an interface, or has no fields of its own. -/
theorem isInterface_or_fields_eq_nil {type : TypeDefinition} (abstract : type.isAbstract) :
    type.isInterface ∨ type.fields = [] := by
  unfold isAbstract at abstract
  unfold isInterface fields
  cases body : type.body <;> simp_all

theorem isInterface_of_mem_fields {type : TypeDefinition} {field : FieldDefinition}
    (member : field ∈ type.fields) (noObject : ¬type.isObject) : type.isInterface := by
  unfold fields at member
  unfold isObject at noObject
  unfold isInterface
  cases body : type.body <;> simp_all

end TypeDefinition

namespace Schema

def OutputFields (schema : Schema) : Prop :=
  ∀ type ∈ schema.types, ∀ field ∈ type.fields,
    (schema.type? field.type.baseName).any TypeDefinition.isOutput = true

/-- On an object type every field of its interfaces is found, with the type that it has there. -/
def InheritsFields (schema : Schema) : Prop :=
  ∀ type ∈ schema.types, ∀ name ∈ type.interfaces, ∀ interface ∈ schema.type? name,
    ∀ field ∈ interface.fields, ∃ found ∈ schema.field? type field.name, found.type = field.type

/-- Root types have no interfaces and are in no union. -/
def RootsApart (schema : Schema) : Prop :=
  (∀ type ∈ schema.types, schema.isRoot type.name = true → type.interfaces = []) ∧
    ∀ type ∈ schema.types, ∀ member ∈ type.members, schema.isRoot member = false

structure IsRootType (schema : Schema) (type : TypeDefinition) : Prop where
  known : schema.type? type.name = some type
  isObject : type.isObject
  isRoot : schema.isRoot type.name = true

structure Coherent (schema : Schema) : Prop where
  outputFields : schema.OutputFields
  inheritsFields : schema.InheritsFields
  rootsApart : schema.RootsApart

instance (schema : Schema) : Decidable schema.OutputFields :=
  inferInstanceAs (Decidable (∀ type ∈ schema.types, ∀ field ∈ type.fields,
    (schema.type? field.type.baseName).any TypeDefinition.isOutput = true))

instance (schema : Schema) : Decidable schema.InheritsFields :=
  inferInstanceAs (Decidable (∀ type ∈ schema.types, ∀ name ∈ type.interfaces,
    ∀ interface ∈ schema.type? name, ∀ field ∈ interface.fields,
      ∃ found ∈ schema.field? type field.name, found.type = field.type))

instance (schema : Schema) : Decidable schema.RootsApart :=
  inferInstanceAs (Decidable ((∀ type ∈ schema.types,
    schema.isRoot type.name = true → type.interfaces = []) ∧
      ∀ type ∈ schema.types, ∀ member ∈ type.members, schema.isRoot member = false))

instance (schema : Schema) : Decidable schema.Coherent :=
  decidable_of_iff (schema.OutputFields ∧ schema.InheritsFields ∧ schema.RootsApart)
    ⟨fun ⟨outputs, inherits, apart⟩ => ⟨outputs, inherits, apart⟩,
      fun ⟨outputs, inherits, apart⟩ => ⟨outputs, inherits, apart⟩⟩

variable {schema : Schema}

theorem field?_eq (parent : TypeDefinition) {name : String} (noSchema : name ≠ "__schema")
    (noType : name ≠ "__type") :
    schema.field? parent name =
      if name = typenameField ∧ parent.isComposite then some .typenameMeta
      else parent.field? name := by
  simp [field?, noSchema, noType]

/-- Every field but those on the schema itself has a defined output type. -/
theorem OutputFields.type_of_field? (outputs : schema.OutputFields)
    (typename : (schema.type? "String").any TypeDefinition.isOutput = true)
    {parent : TypeDefinition} (known : schema.type? parent.name = some parent) {name : String}
    (noSchema : name ≠ "__schema") (noType : name ≠ "__type") {definition : FieldDefinition}
    (found : schema.field? parent name = some definition) :
    ∃ type, schema.type? definition.type.baseName = some type ∧ type.isOutput := by
  rw [field?_eq parent noSchema noType] at found
  apply (Option.any_eq_true _ _).mp
  split at found
  · cases found
    exact typename
  · exact outputs parent (mem_of_type? known) definition (List.mem_of_find?_eq_some found)

theorem Distinct.mem_interfaces (distinct : schema.Distinct) {interface object : TypeDefinition}
    (knownInterface : schema.type? interface.name = some interface)
    (knownObject : schema.type? object.name = some object) (isInterface : interface.isInterface)
    (listed : object.name ∈ schema.listed interface.name) : interface.name ∈ object.interfaces := by
  obtain ⟨lister, member, concrete⟩ := mem_listed.mp listed
  have found := distinct.type?_of_mem member
  rcases mem_concreteOf concrete with ⟨inUnion, named⟩ | ⟨named, _, implemented⟩
  · rw [named, knownInterface] at found
    cases found
    rw [TypeDefinition.members_eq_nil_of_isInterface isInterface] at inUnion
    cases inUnion
  · rw [← named, knownObject] at found
    cases found
    exact implemented

/-- A field of a supertype is found on the type itself, with the same type. -/
theorem InheritsFields.field?_of_isSupertype (inherits : schema.InheritsFields)
    (distinct : schema.Distinct) {super sub : TypeDefinition}
    (knownSuper : schema.type? super.name = some super)
    (knownSub : schema.type? sub.name = some sub) (above : schema.isSupertype super sub)
    {name : String} (noSchema : name ≠ "__schema") (noType : name ≠ "__type")
    {definition : FieldDefinition} (found : schema.field? super name = some definition) :
    ∃ own, schema.field? sub name = some own ∧ own.type = definition.type := by
  unfold isSupertype at above
  rcases Bool.or_eq_true _ _ ▸ above with same | below
  · have same : super.name = sub.name := by simpa using same
    rw [same, knownSub] at knownSuper
    cases knownSuper
    exact ⟨definition, found, rfl⟩
  · simp only [Bool.and_eq_true] at below
    obtain ⟨⟨isObject, isAbstract⟩, possible⟩ := below
    rw [field?_eq super noSchema noType] at found
    split at found
    · rename_i selectsName
      cases found
      refine ⟨.typenameMeta, ?_, rfl⟩
      rw [field?_eq sub noSchema noType,
        if_pos ⟨selectsName.1, TypeDefinition.isComposite_of_isObject isObject⟩]
    · -- unions have no fields of their own, so this is one of an interface
      have member : definition ∈ super.fields := List.mem_of_find?_eq_some found
      have named : definition.name = name := by simpa using List.find?_some found
      rcases TypeDefinition.isInterface_or_fields_eq_nil isAbstract with isInterface | empty
      · have listed : sub.name ∈ schema.listed super.name := by simpa [isPossible] using possible
        have implemented := distinct.mem_interfaces knownSuper knownSub isInterface listed
        obtain ⟨own, foundOwn, sameType⟩ := inherits sub (mem_of_type? knownSub) super.name
          implemented super knownSuper definition member
        exact ⟨own, by rwa [named] at foundOwn, sameType⟩
      · rw [empty] at member
        cases member

theorem RootsApart.eq_of_possible (apart : schema.RootsApart) (distinct : schema.Distinct)
    {root type : TypeDefinition} (starts : schema.IsRootType root)
    (known : schema.type? type.name = some type)
    (possible : root.name ∈ schema.possibleTypes type.name) : type = root := by
  obtain ⟨knownRoot, _, isRoot⟩ := starts
  simp only [possibleTypes, known] at possible
  split at possible
  · have same : root.name = type.name := by simpa using possible
    rw [← same, knownRoot] at known
    exact (Option.some.inj known).symm
  · obtain ⟨lister, member, concrete⟩ := mem_listed.mp possible
    rcases mem_concreteOf concrete with ⟨inUnion, _⟩ | ⟨named, _, implemented⟩
    · have outside := apart.2 lister member root.name inUnion
      rw [isRoot] at outside
      cases outside
    · have found := distinct.type?_of_mem member
      rw [← named, knownRoot] at found
      cases found
      rw [apart.1 root member isRoot] at implemented
      cases implemented

theorem name_of_root {kind : OperationKind} {type : TypeDefinition} (root : schema.root kind = .ok type) :
    schema.rootName? kind = some type.name ∧ schema.type? type.name = some type := by
  unfold Schema.root at root
  split at root
  · rename_i found
    cases root
    obtain ⟨name, named, known⟩ := Option.bind_eq_some_iff.mp found
    rw [name_of_type? known]
    exact ⟨named, known⟩
  all_goals cases root

theorem isRoot_of_root {kind : OperationKind} {type : TypeDefinition} (root : schema.root kind = .ok type) :
    schema.isRoot type.name = true := by
  have named := (name_of_root root).1
  cases kind <;> simp only [rootName?, Option.some.injEq] at named <;> simp [isRoot, named]

theorem isRootType_of_ofItems {items : List SchemaItem} (built : ofItems items = .ok schema)
    {kind : OperationKind} {type : TypeDefinition} (root : schema.root kind = .ok type) :
    schema.IsRootType type := by
  obtain ⟨named, known⟩ := name_of_root root
  have checked : checkRoot schema.types type.name = .ok () := by
    apply forM_eq_ok (ofItems_eq_ok built).2
    cases kind <;> simp only [rootName?, Option.some.injEq] at named <;> simp [named]
  refine ⟨known, ?_, isRoot_of_root root⟩
  unfold checkRoot at checked
  split at checked
  · rename_i isObject
    unfold type? at known
    simpa [known] using isObject
  · cases checked

end Schema

end QueryTypes
