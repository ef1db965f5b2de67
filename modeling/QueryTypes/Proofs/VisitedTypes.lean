import QueryTypes.Proofs.ExpandedTypes
import QueryTypes.Proofs.SchemaTypes

namespace QueryTypes

def TypeDefinition.hasFields (type : TypeDefinition) : Bool := type.body matches .object .. | .interface _

namespace Schema

section Expand

variable {schema : Schema} {path : List String} {name : String} {type : TypeDefinition}

theorem mem_append_singleton {other : String} : other ∈ path ++ [name] ↔ other ∈ name :: path := by
  rw [List.mem_append, List.mem_singleton, List.mem_cons, or_comm]

theorem expand_congr {other : List String} (same : ∀ name, name ∈ path ↔ name ∈ other) :
    schema.expand path name = schema.expand other name := by
  induction path using schema.path_induction generalizing other name with
  | step path deeper =>
    rcases leaf_or_union_or_hasParts schema name with leaf | ⟨type, members, found, body⟩ | ⟨type, found, hasParts⟩
    · rw [expand_of_leaf leaf, expand_of_leaf leaf]
    · rw [expand_of_union found body, expand_of_union found body]
    by_cases seen : type.name ∈ path
    · rw [expand_of_mem found hasParts seen, expand_of_mem found hasParts ((same _).mp seen)]
    · have longer : ∀ name, name ∈ type.name :: path ↔ name ∈ type.name :: other := by simp [same]
      rw [expand_of_notMem found hasParts seen, expand_of_notMem found hasParts (fun also => seen ((same _).mpr also))]
      congr 2
      funext entry
      rw [deeper name type found seen longer]

theorem expand_append (schema : Schema) (path : List String) (name base : String) :
    schema.expand (path ++ [name]) base = schema.expand (name :: path) base :=
  expand_congr fun _ => mem_append_singleton

theorem expandable_of_hasFields (hasFields : type.hasFields = true) :
    expandable type =
      (type.fields.filter needsNoArguments).map fun field => (field.name, field.type.baseName) := by
  unfold TypeDefinition.hasFields at hasFields
  unfold expandable
  split <;> simp_all

end Expand

/-- What is selected for a type, and inside which types, the innermost first. -/
structure VisitedType where
  around : List String
  name : String
  trees : List FieldTree

mutual
/-- The expansion of the type `name` inside the types `around`, from the set `visited` on, with all
    expansions that are made for it and with the set that it leaves. -/
inductive Visits (schema : Schema) : List String → List String → String → List FieldTree → List VisitedType →
    List String → Prop
  | leaf {around visited : List String} {name : String}
      (simple : ∀ type, schema.type? name = some type → type.isLeaf = true) :
      Visits schema around visited name [] [⟨around, name, []⟩] visited
  | union {around visited members : List String} {name : String} {type : TypeDefinition}
      (found : schema.type? name = some type) (body : type.body = .union members) :
      Visits schema around visited name [.typename] [⟨around, name, [.typename]⟩] visited
  | again {around visited : List String} {name : String} {type : TypeDefinition}
      (found : schema.type? name = some type) (hasParts : type.hasParts = true) (seen : type.name ∈ visited) :
      Visits schema around visited name [.typename] [⟨around, name, [.typename]⟩] visited
  | opened {around visited after : List String} {name : String} {type : TypeDefinition} {trees : List FieldTree}
      {expansions : List VisitedType} (found : schema.type? name = some type) (hasParts : type.hasParts = true)
      (fresh : type.name ∉ visited)
      (below : VisitsAll schema (type.name :: around) (visited ++ [type.name]) (expandable type) trees expansions
        after) :
      Visits schema around visited name (orTypename trees) (⟨around, name, orTypename trees⟩ :: expansions)
        (after.erase type.name)

inductive VisitsAll (schema : Schema) : List String → List String → List (String × String) → List FieldTree →
    List VisitedType → List String → Prop
  | nil {around visited : List String} : VisitsAll schema around visited [] [] [] visited
  | cons {around visited between after : List String} {field base : String} {fields : List (String × String)}
      {children trees : List FieldTree} {expansions others : List VisitedType}
      (first : Visits schema around visited base children expansions between)
      (rest : VisitsAll schema around between fields trees others after) :
      VisitsAll schema around visited ((field, base) :: fields) (.node field children :: trees)
        (expansions ++ others) after
end

section Visits

variable {schema : Schema} {around visited after start : List String} {name : String}
  {fields : List (String × String)} {trees : List FieldTree} {expansions : List VisitedType}

mutual
/-- The set is left as it was, so that each field is expanded from the same set. -/
theorem Visits.restores : {around visited after : List String} → {name : String} → {trees : List FieldTree} →
    {expansions : List VisitedType} → Visits schema around visited name trees expansions after →
      trees = schema.expand visited name ∧ after = visited
  | _, _, _, _, _, _, .leaf simple => ⟨(expand_of_leaf simple).symm, rfl⟩
  | _, _, _, _, _, _, .union found body => ⟨(expand_of_union found body).symm, rfl⟩
  | _, _, _, _, _, _, .again found hasParts seen => ⟨(expand_of_mem found hasParts seen).symm, rfl⟩
  | _, _, _, _, _, _, .opened found hasParts fresh below => by
    obtain ⟨same, left⟩ := below.restores
    rw [expand_of_notMem found hasParts fresh, same, left]
    refine ⟨?_, ?_⟩
    · simp only [schema.expand_append]
    · rw [List.erase_append_right _ fresh, List.erase_cons_head, List.append_nil]

theorem VisitsAll.restores : {around visited after : List String} → {fields : List (String × String)} →
    {trees : List FieldTree} → {expansions : List VisitedType} →
    VisitsAll schema around visited fields trees expansions after →
      trees = (fields.map fun entry => .node entry.1 (schema.expand visited entry.2)) ∧ after = visited
  | _, _, _, _, _, _, .nil => ⟨rfl, rfl⟩
  | _, _, _, _, _, _, .cons first rest => by
    obtain ⟨rfl, rfl⟩ := first.restores
    obtain ⟨rfl, rfl⟩ := rest.restores
    exact ⟨rfl, rfl⟩
end

theorem Visits.mem (visits : Visits schema around visited name trees expansions after) :
    ⟨around, name, trees⟩ ∈ expansions := by
  cases visits <;> exact List.mem_cons_self

theorem VisitsAll.mem (visits : VisitsAll schema around visited fields trees expansions after) :
    ∀ entry ∈ fields, ⟨around, entry.2, schema.expand visited entry.2⟩ ∈ expansions := by
  induction fields generalizing visited trees expansions with
  | nil => simp
  | cons entry fields ih =>
    cases visits with
    | cons first rest =>
      obtain ⟨rfl, rfl⟩ := first.restores
      refine List.forall_mem_cons.mpr ⟨List.mem_append_left _ first.mem, fun other member => ?_⟩
      exact List.mem_append_right _ (ih rest other member)

theorem exists_visitsAll
    (each : ∀ name, ∃ trees expansions after, Visits schema around visited name trees expansions after)
    (fields : List (String × String)) :
    ∃ trees expansions after, VisitsAll schema around visited fields trees expansions after := by
  induction fields with
  | nil => exact ⟨[], [], visited, .nil⟩
  | cons entry fields ih =>
    obtain ⟨children, expansions, between, first⟩ := each entry.2
    obtain ⟨trees, others, after, rest⟩ := ih
    obtain ⟨_, rfl⟩ := first.restores
    exact ⟨_, _, _, .cons first rest⟩

/-- Each type that is put into the set is one less that can be. -/
theorem exists_visits_of_mem_iff {path : List String} (same : ∀ name, name ∈ path ↔ name ∈ visited)
    (around : List String) (name : String) :
    ∃ trees expansions after, Visits schema around visited name trees expansions after := by
  -- the set grows at its end and the path at its front
  induction path using schema.path_induction generalizing around visited name with
  | step path deeper =>
    rcases leaf_or_union_or_hasParts schema name with leaf | ⟨type, members, found, body⟩ | ⟨type, found, hasParts⟩
    · exact ⟨_, _, _, .leaf leaf⟩
    · exact ⟨_, _, _, .union found body⟩
    by_cases seen : type.name ∈ visited
    · exact ⟨_, _, _, .again found hasParts seen⟩
    · have longer (name : String) : name ∈ type.name :: path ↔ name ∈ visited ++ [type.name] := by
        rw [mem_append_singleton, List.mem_cons, List.mem_cons, same]
      have each := deeper name type found (fun onPath => seen ((same _).mp onPath)) longer (type.name :: around)
      obtain ⟨_, _, _, below⟩ := exists_visitsAll each (expandable type)
      exact ⟨_, _, _, .opened found hasParts seen below⟩

theorem exists_visits (schema : Schema) (around visited : List String) (name : String) :
    ∃ trees expansions after, Visits schema around visited name trees expansions after :=
  exists_visits_of_mem_iff (fun _ => Iff.rfl) around name

end Visits

/-- What an expansion selects, where `visited` is the set at the start and `all` are the expansions that
    are made from it on. -/
structure VisitedType.Faithful (schema : Schema) (visited : List String) (all : List VisitedType) (expansion : VisitedType) :
    Prop where
  /-- No type is expanded inside itself, -/
  distinct : expansion.around.Nodup
  /-- nor one of the types that were in the set. -/
  apart : ∀ name ∈ expansion.around, name ∉ visited
  leaf : (∀ type, schema.type? expansion.name = some type → type.isLeaf = true) → expansion.trees = []
  union : ∀ type members, schema.type? expansion.name = some type → type.body = .union members →
    expansion.trees = [.typename]
  again : ∀ type, schema.type? expansion.name = some type → type.hasParts = true →
    expansion.name ∈ expansion.around ++ visited → expansion.trees = [.typename]
  /-- Any other object or interface selects its fields in order, apart from those with a required
      argument, and below each of them what is selected for its type inside. -/
  opened : ∀ type, schema.type? expansion.name = some type → type.hasFields = true →
    expansion.name ∉ expansion.around ++ visited → ∃ below : String → List FieldTree,
      expansion.trees = orTypename ((type.fields.filter fun field => !field.arguments.any InputValue.isRequired).map
        fun field => .node field.name (below field.type.baseName)) ∧
      ∀ field ∈ type.fields, (∀ argument ∈ field.arguments, argument.isRequired = false) →
        ⟨expansion.name :: expansion.around, field.type.baseName, below field.type.baseName⟩ ∈ all

section Faithful

variable {schema : Schema} {around visited after start : List String} {name : String}
  {fields : List (String × String)} {trees : List FieldTree} {expansions all : List VisitedType}

theorem VisitedType.Faithful.mono {expansion : VisitedType} (faithful : expansion.Faithful schema start expansions)
    (subset : expansions ⊆ all) : expansion.Faithful schema start all := by
  refine ⟨faithful.distinct, faithful.apart, faithful.leaf, faithful.union, faithful.again, fun type found hasFields fresh => ?_⟩
  obtain ⟨below, selected, inside⟩ := faithful.opened type found hasFields fresh
  exact ⟨below, selected, fun field member free => subset (inside field member free)⟩

structure Surrounds (start around visited : List String) : Prop where
  distinct : around.Nodup
  apart : ∀ name ∈ around, name ∉ start
  holds : ∀ name, name ∈ visited ↔ name ∈ around ++ start

theorem Surrounds.cons (inside : Surrounds start around visited) (fresh : name ∉ visited) :
    Surrounds start (name :: around) (visited ++ [name]) := by
  rw [inside.holds, List.mem_append, not_or] at fresh
  refine ⟨List.nodup_cons.mpr ⟨fresh.1, inside.distinct⟩, List.forall_mem_cons.mpr ⟨fresh.2, inside.apart⟩, ?_⟩
  intro other
  rw [mem_append_singleton, List.mem_cons, inside.holds, List.cons_append, List.mem_cons]

/-- An expansion is faithful if those for the fields of its type are there. -/
theorem Surrounds.faithful (inside : Surrounds start around visited)
    (below : ∀ type, schema.type? name = some type → type.hasParts = true → type.name ∉ visited →
      ∀ entry ∈ expandable type, ⟨name :: around, entry.2, schema.expand (name :: visited) entry.2⟩ ∈ all) :
    VisitedType.Faithful schema start all ⟨around, name, schema.expand visited name⟩ := by
  have seen_iff {type : TypeDefinition} (found : schema.type? name = some type) :
      type.name ∈ visited ↔ name ∈ around ++ start := by rw [name_of_type? found, inside.holds]
  refine ⟨inside.distinct, inside.apart, expand_of_leaf, fun _ _ found body => expand_of_union found body, ?_, ?_⟩
  · intro type found hasParts seen
    exact expand_of_mem found hasParts ((seen_iff found).mpr seen)
  · intro type found hasFields fresh
    have hasParts : type.hasParts = true := by
      unfold TypeDefinition.hasFields at hasFields
      unfold TypeDefinition.hasParts
      split at hasFields <;> simp_all
    have notSeen : type.name ∉ visited := fun seen => fresh ((seen_iff found).mp seen)
    refine ⟨schema.expand (name :: visited), ?_, fun field member free => ?_⟩
    · have whole := expand_of_notMem found hasParts notSeen
      rw [expandable_of_hasFields hasFields, List.map_map, name_of_type? found] at whole
      exact whole
    · have listed : (field.name, field.type.baseName) ∈ expandable type := by
        rw [expandable_of_hasFields hasFields]
        refine List.mem_map_of_mem (f := fun field : FieldDefinition => (field.name, field.type.baseName)) ?_
        exact List.mem_filter.mpr ⟨member, by simpa [needsNoArguments] using free⟩
      exact below type found hasParts notSeen _ listed

theorem Visits.faithful_self (visits : Visits schema around visited name trees expansions after)
    (inside : Surrounds start around visited)
    (below : ∀ type, schema.type? name = some type → type.hasParts = true → type.name ∉ visited →
      ∀ entry ∈ expandable type, ⟨name :: around, entry.2, schema.expand (name :: visited) entry.2⟩ ∈ all) :
    VisitedType.Faithful schema start all ⟨around, name, trees⟩ := by
  rw [visits.restores.1]
  exact inside.faithful below

mutual
theorem Visits.faithful : {around visited after : List String} → {name : String} → {trees : List FieldTree} →
    {expansions : List VisitedType} → Visits schema around visited name trees expansions after →
      Surrounds start around visited → ∀ expansion ∈ expansions, expansion.Faithful schema start expansions
  | _, _, _, _, _, _, .leaf simple, inside => by
    refine List.forall_mem_singleton.mpr ((Visits.leaf simple).faithful_self inside fun type found hasParts => ?_)
    have leaf := simple type found
    unfold TypeDefinition.hasParts at hasParts
    unfold TypeDefinition.isLeaf at leaf
    split at leaf <;> simp_all
  | _, _, _, _, _, _, .union found body, inside => by
    refine List.forall_mem_singleton.mpr ((Visits.union found body).faithful_self inside fun type also hasParts => ?_)
    cases found.symm.trans also
    simp [TypeDefinition.hasParts, body] at hasParts
  | _, _, _, _, _, _, .again found hasParts seen, inside => by
    refine List.forall_mem_singleton.mpr
      ((Visits.again found hasParts seen).faithful_self inside fun type also _ fresh => ?_)
    cases found.symm.trans also
    exact absurd seen fresh
  | _, _, _, _, _, _, .opened found hasParts fresh below, inside => by
    have deeper := inside.cons fresh
    refine List.forall_mem_cons.mpr ⟨?_, fun expansion member =>
      (below.faithful deeper expansion member).mono (List.subset_cons_self _ _)⟩
    refine (Visits.opened found hasParts fresh below).faithful_self inside fun type also _ _ entry listed => ?_
    cases found.symm.trans also
    have made := below.mem entry listed
    rw [schema.expand_append, name_of_type? found] at made
    exact List.mem_cons_of_mem _ made

theorem VisitsAll.faithful : {around visited after : List String} → {fields : List (String × String)} →
    {trees : List FieldTree} → {expansions : List VisitedType} →
    VisitsAll schema around visited fields trees expansions after → Surrounds start around visited →
      ∀ expansion ∈ expansions, expansion.Faithful schema start expansions
  | _, _, _, _, _, _, .nil, _ => by simp
  | _, _, _, _, _, _, .cons first rest, inside => by
    have left := first.restores.2
    intro expansion member
    rcases List.mem_append.mp member with member | member
    · exact (first.faithful inside expansion member).mono (List.subset_append_left _ _)
    · exact (rest.faithful (left.symm ▸ inside) expansion member).mono (List.subset_append_right _ _)
end

end Faithful

end Schema

open Schema

/-- Every expansion ends, whatever the set of visited types, with the trees of the type and with the set
    as it was. On the way no type is expanded inside itself, and each expansion selects what it should. -/
theorem expansion_restores_visited (schema : Schema) (visited : List String) (name : String) :
    (∃ trees expansions after, Visits schema [] visited name trees expansions after) ∧
      ∀ trees expansions after, Visits schema [] visited name trees expansions after →
        trees = schema.expand visited name ∧ after = visited ∧ ⟨[], name, trees⟩ ∈ expansions ∧
          ∀ expansion ∈ expansions, expansion.Faithful schema visited expansions := by
  refine ⟨exists_visits schema [] visited name, fun trees expansions after visits => ?_⟩
  obtain ⟨same, restored⟩ := visits.restores
  have atStart : Surrounds visited [] visited := ⟨List.nodup_nil, by simp, by simp⟩
  exact ⟨same, restored, visits.mem, visits.faithful atStart⟩

end QueryTypes
