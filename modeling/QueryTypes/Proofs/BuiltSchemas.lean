import QueryTypes.Proofs.FoldedExtensions

namespace QueryTypes

section FirstOccurrences

variable {α : Type} [DecidableEq α]

theorem insertAll_eq_eraseDups (xs ys : List α) : insertAll xs ys = xs ++ (ys.filter (· ∉ xs)).eraseDups := by
  induction ys generalizing xs with
  | nil => simp [insertAll]
  | cons y ys ih =>
    change insertAll (insertNew xs y) ys = _
    rw [ih]
    by_cases present : y ∈ xs
    · simp [insertNew, present]
    · have fresh : ys.filter (· ∉ xs ++ [y]) = (ys.filter (· ∉ xs)).filter fun z => !z == y := by
        rw [List.filter_filter]
        apply List.filter_congr
        intro z _
        rw [Bool.eq_iff_iff]
        simp [and_comm]
      have first : (y :: ys).filter (· ∉ xs) = y :: ys.filter (· ∉ xs) :=
        List.filter_cons_of_pos (by simpa using present)
      rw [insertNew, if_neg present, fresh, first, List.eraseDups_cons, List.append_assoc, List.singleton_append]

theorem distinct_eq_eraseDups (xs : List α) : distinct xs = xs.eraseDups := by
  have all : xs.filter (· ∉ []) = xs := List.filter_eq_self.mpr fun _ _ => by simp
  rw [distinct, insertAll_eq_eraseDups, List.nil_append, all]

end FirstOccurrences

namespace Schema

/-- The items make the type an object type with this interface. The interface is named in the last
    definition of the type or in an extension. -/
def Implements (items : List SchemaItem) (object interface : String) : Prop :=
  ∃ definition, definition? items object = some definition ∧ definition.isObject = true ∧
    (interface ∈ definition.interfaces ∨
      ∃ addition, .extension addition ∈ items ∧ addition.name = object ∧
        interface ∈ addition.toType.interfaces)

def addedMembers (items : List SchemaItem) (name : String) : List String :=
  ((extensionsOf items).filter (·.name == name)).flatMap (·.toType.members)

theorem isAbstract_iff {type : TypeDefinition} :
    type.isAbstract = true ↔ type.body.kind = .interface ∨ type.body.kind = .union := by
  obtain ⟨name, description, body⟩ := type
  cases body <;> simp [TypeDefinition.isAbstract, TypeBody.kind]

section Folded

variable (additions : List TypeExtension) {type : TypeDefinition}

theorem isObject_withAll (type : TypeDefinition) : (type.withAll additions).isObject = type.isObject := by
  obtain ⟨name, description, body⟩ := type
  cases body <;> rfl

theorem mem_interfaces_withAll (isObject : type.isObject = true) (interface : String) :
    interface ∈ (type.withAll additions).interfaces ↔
      interface ∈ type.interfaces ∨
        ∃ addition ∈ additions, addition.name = type.name ∧ interface ∈ addition.toType.interfaces := by
  obtain ⟨name, description, body⟩ := type
  cases body <;> cases isObject
  rw [TypeDefinition.withAll, TypeDefinition.interfaces, List.flatMap_map, List.mem_append]
  simp only [List.mem_flatMap, List.mem_filter, beq_iff_eq, and_assoc]
  rfl

theorem members_withAll (isUnion : type.body.kind = .union) :
    (type.withAll additions).members =
      type.members ++ (additions.filter (·.name == type.name)).flatMap (·.toType.members) := by
  obtain ⟨name, description, body⟩ := type
  cases body <;> cases isUnion
  simp [TypeDefinition.withAll, TypeDefinition.members, List.flatMap_map]

end Folded

section Listing

variable {types : List TypeDefinition} {type : TypeDefinition} {name : String}

theorem isObject_of_mem_interfaces (implemented : name ∈ type.interfaces) : type.isObject = true := by
  obtain ⟨own, description, body⟩ := type
  cases body with
  | object interfaces fields => rfl
  | _ => cases implemented

theorem concreteOf_of_not_union (apart : type.name = name → type.body.kind ≠ .union) :
    concreteOf name type = if name ∈ type.interfaces then [type.name] else [] := by
  obtain ⟨own, description, body⟩ := type
  cases body with
  | object interfaces fields => rfl
  | union members =>
    have other : own ≠ name := fun same => apart same rfl
    simp [concreteOf, TypeDefinition.interfaces, other]
  | _ => simp [concreteOf, TypeDefinition.interfaces]

theorem concreteOf_of_union (isUnion : type.body.kind = .union) : concreteOf type.name type = type.members := by
  obtain ⟨own, description, body⟩ := type
  cases body <;> cases isUnion
  simp [concreteOf, TypeDefinition.members]

/-- Under a name that is not that of a union stand the object types that name it, in order. -/
theorem flatMap_concreteOf (apart : ∀ type ∈ types, type.name = name → type.body.kind ≠ .union) :
    types.flatMap (concreteOf name) =
      (types.filter (name ∈ ·.interfaces)).map TypeDefinition.name := by
  induction types with
  | nil => rfl
  | cons type types ih =>
    rw [List.forall_mem_cons] at apart
    rw [List.flatMap_cons, ih apart.2, concreteOf_of_not_union apart.1]
    by_cases implemented : name ∈ type.interfaces <;> simp [implemented]

/-- Under the name of a union stand its members, unless an object type names it as an interface. -/
theorem flatMap_concreteOf_union (unique : (types.map TypeDefinition.name).Nodup) (member : type ∈ types)
    (isUnion : type.body.kind = .union) (unnamed : ∀ object ∈ types, type.name ∉ object.interfaces) :
    types.flatMap (concreteOf type.name) = type.members := by
  obtain ⟨before, after, rfl⟩ := List.append_of_mem member
  have others : ∀ other ∈ before ++ after, concreteOf type.name other = [] := by
    intro other placed
    have inTypes : other ∈ before ++ type :: after := by
      rw [List.mem_append, List.mem_cons]
      exact (List.mem_append.mp placed).imp_right .inr
    have apart : other.name ≠ type.name := by
      rw [(List.perm_middle.map TypeDefinition.name).nodup_iff, List.map_cons, List.nodup_cons] at unique
      exact fun same => unique.1 (same ▸ List.mem_map_of_mem placed)
    rw [concreteOf_of_not_union fun same => absurd same apart, if_neg (unnamed other inTypes)]
  rw [List.forall_mem_append] at others
  rw [List.flatMap_append, List.flatMap_cons, concreteOf_of_union isUnion,
    List.flatMap_eq_nil_iff.mpr others.1, List.flatMap_eq_nil_iff.mpr others.2, List.append_nil,
    List.nil_append]

end Listing

section Built

variable {items : List SchemaItem} {schema : Schema} (built : ofItems items = .ok schema)

include built

/-- The types are the last definitions, each with the parts of all extensions of its name. -/
theorem types_of_ofItems :
    schema.types = (definitionsOf items).map (TypeDefinition.withAll (extensionsOf items)) := by
  have folded := (ofItems_eq_ok built).1
  rw [foldlM_extend (nodup_names_definitionsOf items)] at folded
  cases fault : (extensionsOf items).findSome? fun addition =>
      addition.misfit? ((definitionsOf items).find? (·.name == addition.name)) with
  | none =>
    rw [fault] at folded
    exact (Except.ok.inj folded).symm
  | some fault =>
    simp only [fault] at folded
    cases folded

theorem type?_of_ofItems (name : String) :
    schema.type? name = (definition? items name).map (TypeDefinition.withAll (extensionsOf items)) := by
  rw [type?, types_of_ofItems built, find?_map_withAll, find?_definitionsOf]

theorem implements_iff {object interface : String} :
    Implements items object interface ↔
      ∃ type ∈ schema.types, type.name = object ∧ interface ∈ type.interfaces := by
  constructor
  · rintro ⟨definition, found, isObject, named⟩
    have here := type?_of_ofItems built object
    rw [found, Option.map_some] at here
    have own : (definition.withAll (extensionsOf items)).name = object := name_of_type? here
    refine ⟨_, mem_of_type? here, own, ?_⟩
    rw [TypeDefinition.name_withAll] at own
    rw [mem_interfaces_withAll _ isObject, own]
    simpa only [mem_extensionsOf] using named
  · rintro ⟨type, member, rfl, implemented⟩
    have here := type?_of_ofItems built type.name
    rw [(distinct_of_ofItems built).type?_of_mem member] at here
    obtain ⟨definition, found, rfl⟩ := Option.map_eq_some_iff.mp here.symm
    have isObject : definition.isObject = true :=
      isObject_withAll (extensionsOf items) definition ▸ isObject_of_mem_interfaces implemented
    refine ⟨definition, found, isObject, ?_⟩
    rw [mem_interfaces_withAll _ isObject] at implemented
    simpa only [mem_extensionsOf, TypeDefinition.name_withAll] using implemented

theorem root_of_ofItems {kind : OperationKind} {name : String} (named : schema.rootName? kind = some name) :
    ∃ root, schema.type? name = some root ∧ root.isObject = true ∧ schema.root kind = .ok root := by
  have listed : name ∈ [some schema.query, schema.mutation, schema.subscription].filterMap id := by
    cases kind <;> simp_all [rootName?]
  have checked := forM_eq_ok (ofItems_eq_ok built).2 name listed
  unfold checkRoot at checked
  split at checked
  · rename_i isObject
    obtain ⟨type, found, isObject⟩ := (Option.any_eq_true _ _).mp isObject
    have here : (schema.rootName? kind).bind schema.type? = some type := by
      rw [named]
      exact found
    refine ⟨type, found, isObject, ?_⟩
    unfold root
    rw [here]
  · cases checked

theorem possibleTypes_of_interface {name : String} {definition : TypeDefinition}
    (found : definition? items name = some definition) (isInterface : definition.body.kind = .interface) :
    schema.possibleTypes name = (schema.types.filter (name ∈ ·.interfaces)).map TypeDefinition.name := by
  have unique := distinct_of_ofItems built
  have here := type?_of_ofItems built name
  rw [found, Option.map_some] at here
  have kind := (definition.kind_withAll (extensionsOf items)).trans isInterface
  have apart : ∀ type ∈ schema.types, type.name = name → type.body.kind ≠ .union := by
    rintro type member rfl
    rw [unique.type?_of_mem member, Option.some.injEq] at here
    rw [here, kind]
    decide
  have once : ((schema.types.filter (name ∈ ·.interfaces)).map TypeDefinition.name).Nodup :=
    unique.sublist (List.filter_sublist.map TypeDefinition.name)
  rw [possibleTypes_of_isAbstract here (isAbstract_iff.mpr (.inl kind)), listed, flatMap_concreteOf apart,
    distinct_eq_self once]

theorem possibleTypes_of_union {name : String} {definition : TypeDefinition}
    (found : definition? items name = some definition) (isUnion : definition.body.kind = .union)
    (unnamed : ∀ object, ¬ Implements items object name) :
    schema.possibleTypes name = (definition.members ++ addedMembers items name).eraseDups := by
  have here := type?_of_ofItems built name
  rw [found, Option.map_some] at here
  have own := name_of_type? here
  have kind := (definition.kind_withAll (extensionsOf items)).trans isUnion
  have none : ∀ object ∈ schema.types, name ∉ object.interfaces := by
    intro object member implemented
    exact unnamed object.name ((implements_iff built).mpr ⟨object, member, rfl, implemented⟩)
  have members := flatMap_concreteOf_union (distinct_of_ofItems built) (mem_of_type? here) kind (own.symm ▸ none)
  rw [own, members_withAll _ isUnion, ← definition.name_withAll (extensionsOf items), own] at members
  rw [possibleTypes_of_isAbstract here (isAbstract_iff.mpr (.inr kind)), listed, members,
    distinct_eq_eraseDups, addedMembers]

end Built

end Schema

open Schema

/-- A schema that was built of items holds together. Its root types are object types. The object types
    of an interface are those that name it, in the order of the types, and those of a union its members,
    each once, whether definitions or extensions say so. Listing the object types of an interface or
    a union and testing for one of them is the same. -/
theorem ofItems_coherent {items : List SchemaItem} {schema : Schema} (built : ofItems items = .ok schema) :
    (∀ kind name, schema.rootName? kind = some name →
      ∃ root, schema.type? name = some root ∧ root.isObject = true ∧ schema.root kind = .ok root) ∧
    (∀ name definition, definition? items name = some definition → definition.body.kind = .interface →
      (schema.possibleTypes name).Nodup ∧
        (schema.possibleTypes name).Sublist (schema.types.map TypeDefinition.name) ∧
        ∀ object, object ∈ schema.possibleTypes name ↔ Implements items object name) ∧
    (∀ name definition, definition? items name = some definition → definition.body.kind = .union →
      (∀ object, ¬ Implements items object name) →
      schema.possibleTypes name = (definition.members ++ addedMembers items name).eraseDups) ∧
    ∀ abstract type, schema.type? abstract = some type → type.isAbstract = true →
      ∀ object, schema.isPossible abstract object = true ↔ object ∈ schema.possibleTypes abstract := by
  refine ⟨fun _ _ => root_of_ofItems built, ?_, fun _ _ => possibleTypes_of_union built, ?_⟩
  · intro name definition found isInterface
    rw [possibleTypes_of_interface built found isInterface]
    have ordered : ((schema.types.filter (name ∈ ·.interfaces)).map TypeDefinition.name).Sublist
        (schema.types.map TypeDefinition.name) := List.filter_sublist.map TypeDefinition.name
    refine ⟨(distinct_of_ofItems built).sublist ordered, ordered, ?_⟩
    intro object
    rw [implements_iff built]
    simp only [List.mem_map, List.mem_filter, decide_eq_true_eq, and_assoc]
    exact exists_congr fun type => and_congr_right fun _ => and_comm
  · intro abstract type found isAbstract object
    rw [possibleTypes_of_isAbstract found isAbstract, isPossible, List.contains_iff_mem]

namespace Shelter

def items : List SchemaItem :=
  [.extension ⟨"Cat", .object ["Pet"] []⟩,
    .type ⟨"Cat", none, .interface []⟩,
    .type ⟨"Start", none, .object [] [Stacked.field "pets"]⟩,
    .type ⟨"Pet", none, .interface []⟩,
    .type ⟨"Dog", none, .object ["Pet", "Pet"] []⟩,
    .type ⟨"Cat", none, .object [] []⟩,
    .type ⟨"Guest", none, .union ["Dog", "Start"]⟩,
    .extension ⟨"Guest", .union ["Cat", "Dog"]⟩,
    .roots ⟨some "Start", none, none⟩]

end Shelter

theorem ofItems_coherent_shelter :
    ∃ schema, ofItems Shelter.items = .ok schema ∧ schema.possibleTypes "Pet" = ["Cat", "Dog"] ∧
      Implements Shelter.items "Cat" "Pet" ∧ schema.possibleTypes "Guest" = ["Dog", "Start", "Cat"] ∧
      schema.isPossible "Guest" "Cat" = true ∧ ∃ root, schema.root .query = .ok root ∧ root.name = "Start" := by
  have unnamed : ∀ object, ¬ Implements Shelter.items object "Guest" := by
    have inDefinitions : ∀ definition ∈ (builtInTypes ++ written Shelter.items).reverse,
        "Guest" ∉ definition.interfaces := by decide
    have inExtensions : ∀ addition ∈ extensionsOf Shelter.items, "Guest" ∉ addition.toType.interfaces := by decide
    rintro object ⟨definition, found, _, own | ⟨addition, member, _, added⟩⟩
    · exact inDefinitions definition (List.mem_of_find?_eq_some found) own
    · exact inExtensions addition (mem_extensionsOf.mpr member) added
  have built : ofItems Shelter.items = .ok _ := rfl
  obtain ⟨roots, interfaces, unions, tested⟩ := ofItems_coherent built
  obtain ⟨root, found, _, isRoot⟩ := roots .query "Start" rfl
  obtain ⟨_, _, pets⟩ := interfaces "Pet" _ rfl rfl
  refine ⟨_, built, rfl, (pets "Cat").mp (by decide), unions "Guest" _ rfl rfl unnamed, ?_, root, isRoot,
    name_of_type? found⟩
  exact (tested "Guest" _ rfl rfl "Cat").mpr (by decide)

end QueryTypes
