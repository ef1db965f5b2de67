import QueryTypes.Proofs.SchemaTypes

namespace QueryTypes

inductive TypeKind where
  | scalar
  | object
  | interface
  | union
  | enum
  | input
  deriving DecidableEq

def TypeBody.kind : TypeBody → TypeKind
  | scalar => .scalar
  | object .. => .object
  | interface _ => .interface
  | union _ => .union
  | enum _ => .enum
  | input _ => .input

def TypeExtension.toType (addition : TypeExtension) : TypeDefinition :=
  ⟨addition.name, none, addition.body⟩

/-- The type with the parts of all extensions of its name behind its own, in order. -/
def TypeDefinition.withAll (additions : List TypeExtension) (type : TypeDefinition) : TypeDefinition :=
  let parts := (additions.filter (·.name == type.name)).map TypeExtension.toType
  { type with
    body := match type.body with
      | .scalar => .scalar
      | .object interfaces fields =>
        .object (interfaces ++ parts.flatMap TypeDefinition.interfaces)
          (fields ++ parts.flatMap TypeDefinition.fields)
      | .interface fields => .interface (fields ++ parts.flatMap TypeDefinition.fields)
      | .union members => .union (members ++ parts.flatMap TypeDefinition.members)
      | .enum values => .enum (values ++ parts.flatMap TypeDefinition.values)
      | .input fields => .input (fields ++ parts.flatMap TypeDefinition.inputFields) }

namespace TypeDefinition

@[simp] theorem name_withAll (additions : List TypeExtension) (type : TypeDefinition) :
    (type.withAll additions).name = type.name := rfl

@[simp] theorem kind_withAll (additions : List TypeExtension) (type : TypeDefinition) :
    (type.withAll additions).body.kind = type.body.kind := by
  obtain ⟨name, description, body⟩ := type
  cases body <;> rfl

theorem withAll_append (xs ys : List TypeExtension) (type : TypeDefinition) :
    (type.withAll xs).withAll ys = type.withAll (xs ++ ys) := by
  obtain ⟨name, description, body⟩ := type
  cases body <;> simp [withAll]

theorem withAll_of_apart {additions : List TypeExtension} {type : TypeDefinition}
    (apart : ∀ addition ∈ additions, addition.name ≠ type.name) : type.withAll additions = type := by
  have noParts : additions.filter (·.name == type.name) = [] := by
    simpa using apart
  obtain ⟨name, description, body⟩ := type
  cases body <;> simp [withAll, noParts]

/-- An extension of the same kind can be appended, and no other. -/
theorem append?_eq {type : TypeDefinition} {addition : TypeExtension} (named : addition.name = type.name) :
    type.body.append? addition.body =
      if type.body.kind = addition.body.kind then some (type.withAll [addition]).body else none := by
  obtain ⟨name, description, body⟩ := type
  obtain ⟨_, part⟩ := addition
  cases named
  cases body <;> cases part <;> simp [TypeBody.append?, TypeBody.kind, withAll, TypeExtension.toType,
    TypeDefinition.interfaces, TypeDefinition.fields, TypeDefinition.members, TypeDefinition.values,
    TypeDefinition.inputFields]

end TypeDefinition

def SchemaItem.isExtension : SchemaItem → Bool
  | .extension _ => true
  | _ => false

/-- What is wrong with an extension, by the type that it is for. -/
def TypeExtension.misfit? (addition : TypeExtension) : Option TypeDefinition → Option ConfigurationFault
  | none => some (.extensionOfUndefined addition.name)
  | some base =>
    if base.body.kind = addition.body.kind then none else some (.extensionOfOtherKind addition.name)

namespace Schema

section Extending

variable {types : List TypeDefinition} {addition : TypeExtension}

theorem find?_map_withAll (additions : List TypeExtension) (types : List TypeDefinition) (name : String) :
    (types.map (TypeDefinition.withAll additions)).find? (·.name == name) =
      (types.find? (·.name == name)).map (TypeDefinition.withAll additions) := by
  rw [List.find?_map]
  rfl

theorem map_name_withAll (additions : List TypeExtension) (types : List TypeDefinition) :
    (types.map (TypeDefinition.withAll additions)).map TypeDefinition.name =
      types.map TypeDefinition.name := by
  rw [List.map_map]
  rfl

theorem putBy_withAll {base : TypeDefinition} (unique : (types.map TypeDefinition.name).Nodup)
    (found : types.find? (·.name == addition.name) = some base) :
    putBy TypeDefinition.name types (base.withAll [addition]) =
      types.map (TypeDefinition.withAll [addition]) := by
  have named : base.name = addition.name := by simpa using List.find?_some found
  have member : base.name ∈ types.map TypeDefinition.name :=
    List.mem_map_of_mem (List.mem_of_find?_eq_some found)
  have names : (putBy TypeDefinition.name types (base.withAll [addition])).map TypeDefinition.name =
      types.map TypeDefinition.name := by
    rw [map_putBy]
    exact if_pos member
  apply eq_of_find?_eq TypeDefinition.name
  · rw [names, map_name_withAll]
  · rwa [names]
  · intro name
    rw [find?_putBy, find?_map_withAll, TypeDefinition.name_withAll]
    by_cases same : base.name = name
    · rw [if_pos same, ← same, named, found]
      rfl
    · rw [if_neg same]
      cases other : types.find? (·.name == name) with
      | none => rfl
      | some type =>
        have typeNamed : type.name = name := by simpa using List.find?_some other
        have apart : type.withAll [addition] = type := by
          apply TypeDefinition.withAll_of_apart
          simpa [typeNamed, ← named] using same
        rw [Option.map_some, apart]

/-- An extension adds its parts to the type of its name, unless there is something wrong with it. -/
theorem extend_eq (unique : (types.map TypeDefinition.name).Nodup) (addition : TypeExtension) :
    extend types addition =
      (addition.misfit? (types.find? (·.name == addition.name))).elim
        (.ok (types.map (TypeDefinition.withAll [addition]))) (fun fault => .error (.configuration fault)) := by
  unfold extend
  cases found : types.find? (·.name == addition.name) with
  | none => rfl
  | some base =>
    have named : base.name = addition.name := by simpa using List.find?_some found
    dsimp only
    rw [TypeDefinition.append?_eq named.symm]
    by_cases fits : base.body.kind = addition.body.kind
    · have put := putBy_withAll unique found
      simp only [TypeExtension.misfit?, if_pos fits, Option.elim_none, ← put]
      rfl
    · simp only [TypeExtension.misfit?, if_neg fits, Option.elim_some]

theorem misfit?_map_withAll (additions : List TypeExtension) (base : Option TypeDefinition) :
    addition.misfit? (base.map (TypeDefinition.withAll additions)) = addition.misfit? base := by
  cases base with
  | none => rfl
  | some base => simp [TypeExtension.misfit?]

/-- Extensions add their parts to the types of their names. The first one that has something wrong
    with it is the fault. -/
theorem foldlM_extend (unique : (types.map TypeDefinition.name).Nodup) (additions : List TypeExtension) :
    additions.foldlM extend types =
      (additions.findSome? fun addition => addition.misfit? (types.find? (·.name == addition.name))).elim
        (.ok (types.map (TypeDefinition.withAll additions))) (fun fault => .error (.configuration fault)) := by
  induction additions generalizing types with
  | nil =>
    have same : types.map (TypeDefinition.withAll []) = types := by
      apply List.map_id''
      intro type
      exact TypeDefinition.withAll_of_apart nofun
    rw [List.findSome?_nil, Option.elim_none, same]
    rfl
  | cons addition additions ih =>
    rw [List.foldlM_cons, extend_eq unique, List.findSome?_cons]
    cases addition.misfit? (types.find? (·.name == addition.name)) with
    | some fault => rfl
    | none =>
      have uniqueAfter := map_name_withAll [addition] types ▸ unique
      -- the extended types have the names and kinds that they had, so the others fit as before
      simp only [Option.elim_none, ok_bind, ih uniqueAfter, find?_map_withAll, misfit?_map_withAll,
        List.map_map, Function.comp_def, TypeDefinition.withAll_append, List.singleton_append]

end Extending

section Inlining

def written (items : List SchemaItem) : List TypeDefinition :=
  items.filterMap fun
    | .type definition => some definition
    | _ => none

def builtInTypes : List TypeDefinition := builtInScalars.map (⟨·, none, .scalar⟩)

def definition? (items : List SchemaItem) (name : String) : Option TypeDefinition :=
  (builtInTypes ++ written items).reverse.find? (·.name == name)

def inlineAll (additions : List TypeExtension) : List SchemaItem → List SchemaItem
  | [] => []
  | .extension _ :: rest => inlineAll additions rest
  | .type definition :: rest =>
    let isLast := (written rest).all (·.name != definition.name)
    .type (if isLast then definition.withAll additions else definition) :: inlineAll additions rest
  | item :: rest => item :: inlineAll additions rest

/-- The items with the parts of their extensions written in the types. -/
def inlined (items : List SchemaItem) : List SchemaItem := inlineAll (extensionsOf items) items

theorem definitionsOf_eq (items : List SchemaItem) :
    definitionsOf items = distinctBy TypeDefinition.name (builtInTypes ++ written items) := rfl

theorem find?_definitionsOf (items : List SchemaItem) (name : String) :
    (definitionsOf items).find? (·.name == name) = definition? items name := by
  rw [definitionsOf_eq, find?_distinctBy, definition?]

variable (additions : List TypeExtension)

theorem extensionsOf_inlineAll (items : List SchemaItem) :
    extensionsOf (inlineAll additions items) = [] := by
  induction items with
  | nil => rfl
  | cons item items ih => cases item <;> exact ih

theorem rootNamesOf_inlineAll (items : List SchemaItem) :
    rootNamesOf (inlineAll additions items) = rootNamesOf items := by
  unfold rootNamesOf
  generalize (⟨none, none, none⟩ : RootNames) = start
  induction items generalizing start with
  | nil => rfl
  | cons item items ih => cases item <;> exact ih _

theorem written_type (definition : TypeDefinition) (items : List SchemaItem) :
    written (.type definition :: items) = definition :: written items := rfl

theorem names_written_inlineAll (items : List SchemaItem) :
    (written (inlineAll additions items)).map TypeDefinition.name =
      (written items).map TypeDefinition.name := by
  induction items with
  | nil => rfl
  | cons item items ih =>
    cases item with
    | type definition =>
      rw [inlineAll, written_type, written_type, List.map_cons, List.map_cons, ih]
      congr 1
      split <;> rfl
    | roots names => exact ih
    | extension addition => exact ih
    | directive => exact ih

/-- Only the last definition of a name counts, and that is the one that has the added parts. -/
theorem find?_written_inlineAll (items : List SchemaItem) (name : String) :
    (written (inlineAll additions items)).reverse.find? (·.name == name) =
      ((written items).reverse.find? (·.name == name)).map (TypeDefinition.withAll additions) := by
  induction items with
  | nil => rfl
  | cons item items ih =>
    cases item with
    | type definition =>
      rw [inlineAll, written_type, written_type, List.reverse_cons, List.reverse_cons,
        List.find?_append, List.find?_append, ih, Option.map_or]
      by_cases same : definition.name = name
      · cases found : (written items).reverse.find? (·.name == name) with
        | some later => rfl
        | none =>
          have isLast : (written items).all (·.name != definition.name) = true := by
            simpa [same] using found
          simp only [isLast, ↓reduceIte]
          simp [same]
      · have other : ∀ d : TypeDefinition, d.name = definition.name →
            [d].find? (·.name == name) = none := by
          intro d named
          simpa [named] using same
        rw [other definition rfl, other _ (by split <;> rfl), Option.map_none]
    | roots names => exact ih
    | extension addition => exact ih
    | directive => exact ih

theorem find?_builtInTypes (name : String) :
    builtInTypes.reverse.find? (·.name == name) =
      (builtInTypes.reverse.find? (·.name == name)).map (TypeDefinition.withAll additions) := by
  have unchanged : builtInTypes.reverse.map (TypeDefinition.withAll additions) = builtInTypes.reverse := rfl
  rw [← find?_map_withAll, unchanged]

theorem definition?_inlineAll (items : List SchemaItem) (name : String) :
    definition? (inlineAll additions items) name =
      (definition? items name).map (TypeDefinition.withAll additions) := by
  unfold definition?
  rw [List.reverse_append, List.reverse_append, List.find?_append, List.find?_append, Option.map_or,
    find?_written_inlineAll, ← find?_builtInTypes]

theorem definitionsOf_inlineAll (items : List SchemaItem) :
    definitionsOf (inlineAll additions items) =
      (definitionsOf items).map (TypeDefinition.withAll additions) := by
  apply eq_of_find?_eq TypeDefinition.name
  · rw [map_name_withAll, definitionsOf_eq, definitionsOf_eq, map_distinctBy, map_distinctBy,
      List.map_append, List.map_append, names_written_inlineAll]
  · exact nodup_names_definitionsOf _
  · intro name
    rw [find?_map_withAll, find?_definitionsOf, find?_definitionsOf, definition?_inlineAll]

end Inlining

theorem ofItems_of_error {items : List SchemaItem} {e : Error}
    (failed : (extensionsOf items).foldlM extend (definitionsOf items) = .error e) :
    ofItems items = .error e := by
  unfold ofItems
  rw [failed]
  rfl

theorem ofItems_congr {items other : List SchemaItem}
    (types : (extensionsOf items).foldlM extend (definitionsOf items) =
      (extensionsOf other).foldlM extend (definitionsOf other))
    (names : rootNamesOf items = rootNamesOf other) : ofItems items = ofItems other := by
  unfold ofItems
  rw [types, names]

section Placing

variable {items other : List SchemaItem}

theorem mem_extensionsOf {addition : TypeExtension} :
    addition ∈ extensionsOf items ↔ .extension addition ∈ items := by
  unfold extensionsOf
  rw [List.mem_filterMap]
  constructor
  · rintro ⟨item, member, taken⟩
    cases item <;> cases taken
    exact member
  · exact fun member => ⟨_, member, rfl⟩

theorem extensionsOf_filter (items : List SchemaItem) :
    extensionsOf (items.filter SchemaItem.isExtension) = extensionsOf items := by
  unfold extensionsOf
  rw [List.filterMap_filter]
  congr 1
  funext item
  cases item <;> rfl

theorem written_filter (items : List SchemaItem) :
    written (items.filter (! ·.isExtension)) = written items := by
  unfold written
  rw [List.filterMap_filter]
  congr 1
  funext item
  cases item <;> rfl

theorem rootNamesOf_filter (items : List SchemaItem) :
    rootNamesOf (items.filter (! ·.isExtension)) = rootNamesOf items := by
  unfold rootNamesOf
  rw [List.foldl_filter]
  congr 1
  funext names item
  cases item <;> rfl

/-- Where the extensions stand among the other items does not matter. -/
theorem ofItems_of_filter_eq
    (extensions : other.filter SchemaItem.isExtension = items.filter SchemaItem.isExtension)
    (definitions : other.filter (! ·.isExtension) = items.filter (! ·.isExtension)) :
    ofItems other = ofItems items := by
  apply ofItems_congr
  · rw [← extensionsOf_filter other, extensions, extensionsOf_filter, definitionsOf_eq, definitionsOf_eq,
      ← written_filter other, definitions, written_filter]
  · rw [← rootNamesOf_filter other, definitions, rootNamesOf_filter]

end Placing

/-- The types of the items, or the fault of the first extension that has something wrong with it. -/
theorem foldlM_extend_definitionsOf (items : List SchemaItem) :
    (extensionsOf items).foldlM extend (definitionsOf items) =
      ((extensionsOf items).findSome? fun addition =>
          addition.misfit? (definition? items addition.name)).elim
        (.ok (definitionsOf (inlined items))) (fun fault => .error (.configuration fault)) := by
  rw [foldlM_extend (nodup_names_definitionsOf items), inlined, definitionsOf_inlineAll]
  simp only [find?_definitionsOf]

end Schema

open Schema

/-- A schema whose extensions all name a defined type of their kind is the one of its items with the
    extensions written in the types, faults included. Otherwise there is no schema, for a reason that
    the first other extension gives. It does not matter where the extensions stand. -/
theorem ofItems_inlined (items : List SchemaItem) :
    (∀ addition, .extension addition ∈ items → addition.misfit? (definition? items addition.name) ≠ none →
      ∃ fault, ofItems items = .error (.configuration fault) ∧
        (extensionsOf items).findSome? (fun each => each.misfit? (definition? items each.name)) = some fault) ∧
    ((∀ addition, .extension addition ∈ items → addition.misfit? (definition? items addition.name) = none) →
      ofItems items = ofItems (inlined items)) ∧
    ∀ other, other.filter SchemaItem.isExtension = items.filter SchemaItem.isExtension →
      other.filter (! ·.isExtension) = items.filter (! ·.isExtension) → ofItems other = ofItems items := by
  have types := foldlM_extend_definitionsOf items
  refine ⟨?_, ?_, fun other => ofItems_of_filter_eq⟩
  · intro addition member wrong
    cases first : (extensionsOf items).findSome? fun each => each.misfit? (definition? items each.name) with
    | none => exact absurd (List.findSome?_eq_none_iff.mp first addition (mem_extensionsOf.mpr member)) wrong
    | some fault =>
      rw [first] at types
      exact ⟨fault, ofItems_of_error types, rfl⟩
  · intro fits
    have noFault : (extensionsOf items).findSome?
        (fun each => each.misfit? (definition? items each.name)) = none := by
      rw [List.findSome?_eq_none_iff]
      intro addition member
      exact fits addition (mem_extensionsOf.mp member)
    have noExtension : extensionsOf (inlined items) = [] := extensionsOf_inlineAll _ items
    apply ofItems_congr
    · rw [types, noFault, noExtension]
      rfl
    · exact (rootNamesOf_inlineAll _ items).symm

namespace Stacked

def field (name : String) : FieldDefinition := ⟨name, none, [], .named "Int"⟩

def items : List SchemaItem :=
  [.extension ⟨"Plot", .object ["Named"] [field "rows"]⟩,
    .type ⟨"Plot", none, .object [] [field "old"]⟩,
    .type ⟨"Query", none, .object [] [field "plots"]⟩,
    .type ⟨"Plot", none, .object [] [field "size"]⟩,
    .extension ⟨"Plot", .object [] [field "columns"]⟩,
    .extension ⟨"Int", .scalar⟩]

def moved : List SchemaItem := items.filter (! ·.isExtension) ++ items.filter SchemaItem.isExtension

def whole : List SchemaItem :=
  [.type ⟨"Plot", none, .object [] [field "old"]⟩,
    .type ⟨"Query", none, .object [] [field "plots"]⟩,
    .type ⟨"Plot", none, .object ["Named"] [field "size", field "rows", field "columns"]⟩]

def misfitting : List SchemaItem := .extension ⟨"Query", .enum []⟩ :: items

end Stacked

theorem ofItems_inlined_stacked :
    ofItems Stacked.items = ofItems Stacked.whole ∧ ofItems Stacked.moved = ofItems Stacked.items ∧
      ofItems Stacked.misfitting = .error (.configuration (.extensionOfOtherKind "Query")) := by
  obtain ⟨_, written, placed⟩ := ofItems_inlined Stacked.items
  refine ⟨?_, placed Stacked.moved rfl rfl, ?_⟩
  · apply written
    intro addition member
    rw [← mem_extensionsOf] at member
    revert addition
    decide
  · obtain ⟨fault, failed, first⟩ :=
      (ofItems_inlined Stacked.misfitting).1 ⟨"Query", .enum []⟩ List.mem_cons_self (by decide)
    have same : .extensionOfOtherKind "Query" = fault := Option.some.inj first
    rw [same, failed]

end QueryTypes
