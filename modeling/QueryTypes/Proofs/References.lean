import QueryTypes.Proofs.UsedTypes
import QueryTypes.Proofs.Writing

namespace QueryTypes

open ResponseField

namespace MemberType

mutual
def leaves : MemberType → List Leaf
  | .literals _ => []
  | .named _ alternatives => alternatives
  | .object _ members => leavesAll members

def leavesOf : Member MemberType → List Leaf
  | ⟨_, _, _, type⟩ => leaves type

def leavesAll : List (Member MemberType) → List Leaf
  | [] => []
  | member :: rest => leavesOf member ++ leavesAll rest
end

theorem leavesAll_eq (members : List (Member MemberType)) :
    leavesAll members = members.flatMap fun member => member.type.leaves := by
  induction members with
  | nil => rfl
  | cons member rest ih => rw [leavesAll, ih, List.flatMap_cons, leavesOf]

end MemberType

namespace Declaration

def leaves : Declaration → List Leaf
  | .record _ _ members => members.flatMap fun member => member.type.leaves
  | .enum _ _ _ => []
  | .union _ alternatives => alternatives.map .reference
  | .methods _ entries => entries.flatMap fun entry =>
    entry.parameters.flatMap (fun parameter => parameter.2.leaves) ++ [.reference entry.result]

end Declaration

namespace Emission

/-- A text that stands for a scalar, or for a type that the schema does not have. -/
def IsScalar (e : Emission) (text : String) : Prop :=
  ∃ name, (∀ type, e.schema.type? name = some type → type.body = .scalar) ∧
    text = e.scalarName structuralScalar "string" name

def Resolves (e : Emission) (names : List String) (leaves : List Leaf) : Prop :=
  ∀ leaf ∈ leaves, (∃ text, leaf = .scalar text ∧ e.IsScalar text) ∨ ∃ name ∈ names, leaf = .reference name

/-- Declarations show only scalars, each other and what is given. -/
def Closed (e : Emission) (given : List String) (declarations : List Declaration) : Prop :=
  ∀ own ∈ declarations, e.Resolves (given ++ declarations.map Declaration.name) own.leaves

variable {e : Emission} {given names more : List String} {leaves others : List Leaf} {own : Declaration}
  {declarations further : List Declaration}

theorem Resolves.mono (resolves : e.Resolves names leaves) (subset : names ⊆ more) : e.Resolves more leaves := by
  intro leaf member
  rcases resolves leaf member with scalar | ⟨name, listed, same⟩
  · exact .inl scalar
  · exact .inr ⟨name, subset listed, same⟩

theorem Resolves.append (left : e.Resolves names leaves) (right : e.Resolves names others) :
    e.Resolves names (leaves ++ others) := by
  intro leaf member
  rcases List.mem_append.mp member with member | member
  · exact left leaf member
  · exact right leaf member

theorem Resolves.of_names (subset : names ⊆ more) : e.Resolves more (names.map .reference) := by
  intro leaf member
  obtain ⟨name, listed, rfl⟩ := List.mem_map.mp member
  exact .inr ⟨name, subset listed, rfl⟩

theorem Resolves.flatMap {α : Type} {xs : List α} {shown : α → List Leaf}
    (each : ∀ x ∈ xs, e.Resolves names (shown x)) : e.Resolves names (xs.flatMap shown) := by
  intro leaf member
  obtain ⟨x, listed, inside⟩ := List.mem_flatMap.mp member
  exact each x listed leaf inside

namespace Closed

theorem nil : e.Closed given [] := nofun

theorem append (left : e.Closed given declarations) (right : e.Closed given further) :
    e.Closed given (declarations ++ further) := by
  intro own member
  rw [List.map_append, ← List.append_assoc]
  rcases List.mem_append.mp member with member | member
  · exact (left own member).mono (List.subset_append_left _ _)
  · apply (right own member).mono
    exact List.append_subset.mpr ⟨by simp, List.subset_append_right _ _⟩

theorem extend (closed : e.Closed given declarations)
    (each : ∀ own ∈ further, e.Resolves (given ++ declarations.map Declaration.name) own.leaves) :
    e.Closed given (declarations ++ further) := by
  intro own member
  rw [List.map_append, ← List.append_assoc]
  refine Resolves.mono ?_ (List.subset_append_left _ _)
  rcases List.mem_append.mp member with member | member
  · exact closed own member
  · exact each own member

theorem concat (closed : e.Closed given declarations)
    (resolves : e.Resolves (given ++ declarations.map Declaration.name) own.leaves) :
    e.Closed given (declarations ++ [own]) := by
  apply closed.extend
  intro other last
  rwa [List.mem_singleton.mp last]

/-- A declaration may come in front of those that it shows. -/
theorem cons (resolves : e.Resolves (given ++ declarations.map Declaration.name) own.leaves)
    (closed : e.Closed given declarations) : e.Closed given (own :: declarations) := by
  have more : given ++ declarations.map Declaration.name ⊆ given ++ (own :: declarations).map Declaration.name :=
    List.append_subset.mpr ⟨by simp, by simp⟩
  intro other member
  rcases List.mem_cons.mp member with rfl | member
  · exact resolves.mono more
  · exact (closed other member).mono more

theorem flatten {lists : List (List Declaration)} (each : ∀ list ∈ lists, e.Closed given list) :
    e.Closed given lists.flatten := by
  induction lists with
  | nil => exact .nil
  | cons list rest ih =>
    obtain ⟨own, each⟩ := List.forall_mem_cons.mp each
    exact own.append (ih each)

/-- Where all given names are declared, so is all that is shown. -/
theorem resolves (closed : e.Closed given declarations)
    (declared : given ⊆ declarations.map Declaration.name) :
    ∀ own ∈ declarations, e.Resolves (declarations.map Declaration.name) own.leaves := by
  intro own member
  exact (closed own member).mono (List.append_subset.mpr ⟨declared, fun _ => id⟩)

end Closed

theorem resolves_record {α : Type} {make : α → Except Error (Member MemberType)} {xs : List α}
    {members : List (Member MemberType)} (ok : xs.mapM make = .ok members)
    (each : ∀ x ∈ xs, ∀ member, make x = .ok member → e.Resolves names member.type.leaves)
    (name : String) (comments : List String) :
    e.Resolves names (Declaration.record name comments members).leaves := by
  apply Resolves.flatMap
  intro member listed
  obtain ⟨x, inXs, made⟩ := exists_of_mem_mapM ok listed
  exact each x inXs member made

variable {style : TypeStyle} {rename : String → String}

def typeNames (e : Emission) (rename : String → String) : List String :=
  (e.enumsUsed ++ e.inputsUsed).map fun type => rename type.name

theorem resolves_leaf (rename : String → String) {name : String} (provided : e.compiled.Provides name) :
    e.Resolves (e.typeNames rename) [e.leaf rename name] := by
  intro shown only
  rw [List.mem_singleton.mp only]
  unfold leaf
  cases found : e.schema.type? name with
  | none =>
    refine .inl ⟨_, rfl, name, fun type known => ?_, rfl⟩
    rw [found] at known
    cases known
  | some type =>
    obtain ⟨simple, used⟩ := provided type found
    have named := Schema.name_of_type? found
    unfold TypeDefinition.isComposite at simple
    unfold TypeDefinition.isDeclared at used
    -- An enum or an input object is used, and so it is among those that are declared.
    have listed (isUsed : name ∈ e.compiled.typesUsed) : type ∈ e.typesUsed :=
      List.mem_filterMap.mpr ⟨name, isUsed, found⟩
    rw [Option.map_some]
    cases body : type.body with
    | scalar =>
      refine .inl ⟨_, rfl, name, fun other known => ?_, rfl⟩
      cases found.symm.trans known
      exact body
    | object interfaces fields => simp [body] at simple
    | interface fields => simp [body] at simple
    | union members => simp [body] at simple
    | enum values =>
      have isUsed := used (by simp [body])
      have inEnums : type ∈ e.enumsUsed := List.mem_filter.mpr ⟨listed isUsed, by simp [body]⟩
      refine .inr ⟨rename name, ?_, rfl⟩
      exact List.mem_map.mpr ⟨type, List.mem_append_left _ inEnums, congrArg rename named⟩
    | input fields =>
      have isUsed := used (by simp [body])
      have inInputs : type ∈ e.inputsUsed := List.mem_filter.mpr ⟨listed isUsed, by simp [body]⟩
      refine .inr ⟨rename name, ?_, rfl⟩
      exact List.mem_map.mpr ⟨type, List.mem_append_right _ inInputs, congrArg rename named⟩

theorem resolves_leafType {type : TypeRef} {written : MemberType}
    (ok : e.leafType style rename type = .ok written) (provided : e.compiled.Provides type.baseName) :
    e.Resolves (e.typeNames rename) written.leaves := by
  obtain ⟨around, _, ok⟩ := bind_eq_ok.mp ok
  cases ok
  exact resolves_leaf rename provided

theorem resolves_inputMember {comments : List String} {name : String} {type : TypeRef}
    {member : Member MemberType} (ok : e.inputMember style rename comments name type = .ok member)
    (provided : e.compiled.Provides type.baseName) : e.Resolves (e.typeNames rename) member.type.leaves := by
  obtain ⟨written, made, ok⟩ := bind_eq_ok.mp ok
  cases ok
  exact resolves_leafType made provided

theorem closed_variables {operation : CompiledOperation} {declared : List Declaration}
    (ok : e.variableRecords style rename operation = .ok declared)
    (provided : ∀ v ∈ operation.parameters, e.compiled.Provides v.type.baseName) :
    e.Closed (e.typeNames rename) declared := by
  unfold Emission.variableRecords at ok
  split at ok
  · cases ok
    exact .nil
  · obtain ⟨members, made, ok⟩ := bind_eq_ok.mp ok
    cases ok
    refine .cons (resolves_record made ?_ _ _) .nil
    intro v listed member done
    exact (resolves_inputMember done (provided v listed)).mono (List.subset_append_left _ _)

/-- The declarations of the types used are closed, and have their names. -/
theorem closed_types (supplied : e.Supplied) (comment : EnumValue → Option String)
    {comments : InputValue → List String} {inputs : List Declaration}
    (done : e.inputsUsed.mapM (e.inputRecord style rename comments) = .ok inputs) :
    e.Closed (e.typeNames rename) (e.enumsUsed.map (enumOf rename comment) ++ inputs) ∧
      (e.enumsUsed.map (enumOf rename comment) ++ inputs).map Declaration.name = e.typeNames rename := by
  constructor
  · intro declaration member
    rcases List.mem_append.mp member with member | member
    · obtain ⟨type, _, rfl⟩ := List.mem_map.mp member
      exact nofun
    · obtain ⟨type, used, made⟩ := exists_of_mem_mapM done member
      obtain ⟨members, written, made⟩ := bind_eq_ok.mp made
      cases made
      refine resolves_record written ?_ _ _
      intro field listed _ typed
      exact (resolves_inputMember typed (supplied.inputs type used field listed)).mono
        (List.subset_append_left _ _)
  · have ofInputs : inputs.map Declaration.name = e.inputsUsed.map fun type => rename type.name := by
      refine map_eq_of_mapM ?_ done
      intro type declaration made
      obtain ⟨members, _, made⟩ := bind_eq_ok.mp made
      cases made
      rfl
    rw [List.map_append, List.map_map, ofInputs, typeNames, List.map_append]
    rfl

def Closes (e : Emission) (given : List String) (made : Except Error (List Declaration)) : Prop :=
  ∀ declarations, made = .ok declarations → e.Closed given declarations

theorem Closes.gather {α : Type} {make : α → Except Error (List Declaration)} {xs : List α}
    (each : ∀ x ∈ xs, e.Closes given (make x)) : e.Closes given (gather make xs) := by
  intro declarations ok
  obtain ⟨lists, made, rfl⟩ := gather_eq_ok ok
  apply Closed.flatten
  intro list member
  obtain ⟨x, inXs, ofX⟩ := exists_of_mem_mapM made member
  exact each x inXs list ofX

variable {field : ResponseField} {fields : List ResponseField} {group : Grouping}

theorem closes_nestedWith {declare : List String → ResponseField → Except Error (List Declaration)}
    (each : ∀ field ∈ fields, ∀ path, e.Closes given (declare path field)) (path : List String) :
    e.Closes given (e.nestedWith declare path fields) := by
  apply Closes.gather
  intro field member
  split
  · exact each field member _
  · rintro _ ⟨⟩
    exact .nil

theorem closes_shapesWith
    (ofFields : ∀ path parent typenames, e.Closes given (group path parent typenames field.fields))
    (ofCases : ∀ typeCase ∈ field.cases, ∀ path parent typenames,
      e.Closes given (group path parent typenames typeCase.fields)) (path : List String) :
    e.Closes given (e.shapesWith group path field) := by
  intro declarations ok
  obtain ⟨inCases, cases, ok⟩ := bind_eq_ok.mp ok
  obtain ⟨others, rest, ok⟩ := bind_eq_ok.mp ok
  cases ok
  refine Closed.append (Closes.gather (fun typeCase member => ofCases typeCase member _ _ _) _ cases) ?_
  unfold otherWith at rest
  split at rest
  · exact ofFields _ _ _ _ rest
  · cases rest
    exact .nil

/-- What a language of structural types declares is closed if all that it declares for fields is, and types used
    are declared under their names. -/
theorem closed_declareAll (supplied : e.Supplied) {plan : Plan}
    (groups : ∀ operation ∈ e.compiled.operations, ∀ path parent,
      e.Closes (e.typeNames plan.rename) (plan.group path parent none operation.fields))
    (fragments : ∀ fragment ∈ e.compiled.fragments, e.Closes (e.typeNames plan.rename) (plan.fragment fragment))
    {declared : List Declaration} (ok : e.declareAll plan = .ok declared) :
    e.Closed (e.typeNames plan.rename) declared ∧ e.typeNames plan.rename ⊆ declared.map Declaration.name := by
  obtain ⟨ofInputs, ofOperations, ofFragments, inputs, operations, inFragments, rfl⟩ := declareAll_eq_ok ok
  obtain ⟨closedTypes, names⟩ := closed_types supplied plan.ofValue inputs
  have closedOperations : e.Closed (e.typeNames plan.rename) ofOperations := by
    refine Closes.gather (fun operation member declarations made => ?_) _ operations
    obtain ⟨parameters, ofParameters, made⟩ := bind_eq_ok.mp made
    obtain ⟨selections, ofFields, made⟩ := bind_eq_ok.mp made
    cases made
    have closed := closed_variables ofParameters (supplied.parameters operation member)
    exact closed.append (groups operation member _ _ _ ofFields)
  refine ⟨(closedTypes.append closedOperations).append (Closes.gather fragments _ inFragments), ?_⟩
  intro name known
  rw [← names] at known
  rw [List.map_append, List.map_append]
  exact List.mem_append_left _ (List.mem_append_left _ known)

end Emission

namespace Flow

variable {e : Emission} {path : List String} {field : ResponseField} {fields : List ResponseField}

theorem mem_names_nested {below : List Declaration} (nests : nested e path fields = .ok below)
    (member : field ∈ fields) (composite : e.isComposite field = true) :
    pathName (path ++ [field.responseName]) ∈ below.map Declaration.name := by
  rw [names_nested (fun field _ => named field) nests, paths_eq]
  have first : [] ∈ pathsBelow e field := by
    cases field
    exact List.mem_cons_self
  refine List.mem_map.mpr ⟨[field.responseName], List.mem_flatMap.mpr ⟨field, ?_, ?_⟩, rfl⟩
  · exact List.mem_filter.mpr ⟨member, composite⟩
  · exact List.mem_map.mpr ⟨[], first, rfl⟩

/-- The object type of a selection refers to types used and to the selections below it. -/
theorem resolves_record (provided : ∀ field ∈ fields, e.compiled.ProvidesFor field) {parent : String}
    {typenames : Option (List String)} {own : Declaration} {below : List Declaration}
    (recorded : record e path parent typenames fields = .ok own)
    (nests : nested e path fields = .ok below) :
    e.Resolves (e.typeNames id ++ below.map Declaration.name) own.leaves := by
  obtain ⟨members, made, recorded⟩ := bind_eq_ok.mp recorded
  cases recorded
  refine Emission.resolves_record made ?_ _ _
  intro field listed written done
  unfold member at done
  split at done
  · cases done
    exact nofun
  · split at done
    · rename_i composite
      obtain ⟨around, _, done⟩ := bind_eq_ok.mp done
      cases done
      have declared := mem_names_nested nests listed composite
      exact .of_names (List.cons_subset.mpr ⟨List.mem_append_right _ declared, List.nil_subset _⟩)
    · rename_i simple
      obtain ⟨type, typed, done⟩ := bind_eq_ok.mp done
      cases done
      have provided := (provided field listed).resolve_left simple
      exact (Emission.resolves_leafType typed provided).mono (List.subset_append_left _ _)

theorem closes_group (provided : ∀ field ∈ fields, field.Everywhere e.compiled.ProvidesFor)
    (each : ∀ field ∈ fields, ∀ path, e.Closes (e.typeNames id) (selection e path field)) (path : List String)
    (parent : String) (typenames : Option (List String)) :
    e.Closes (e.typeNames id) (group e path parent typenames fields) := by
  intro declarations ok
  obtain ⟨own, recorded, ok⟩ := bind_eq_ok.mp ok
  obtain ⟨below, nests, ok⟩ := bind_eq_ok.mp ok
  cases ok
  have resolves := resolves_record (fun field member => (everywhere_iff.mp (provided field member)).1) recorded nests
  rw [nested_eq] at nests
  exact .cons resolves (Emission.closes_nestedWith each path _ nests)

theorem closes (provided : field.Everywhere e.compiled.ProvidesFor) (path : List String) :
    e.Closes (e.typeNames id) (selection e path field) := by
  induction field using induction_below generalizing path with
  | step field below belowCases =>
    intro declarations ok
    obtain ⟨_, inFields, inCases⟩ := everywhere_iff.mp provided
    have ofFields := closes_group inFields fun child member => below child member (inFields child member)
    by_cases uniform : field.propertySets e.schema = []
    · rw [selection_of_uniform uniform] at ok
      exact ofFields _ _ _ _ ok
    · -- The alternatives of the choice are the ends of the paths through the shapes.
      have names := named field path declarations ok
      rw [pathsBelow_of_shapes uniform] at names
      rw [selection_of_shapes uniform] at ok
      obtain ⟨shapes, made, ok⟩ := bind_eq_ok.mp ok
      cases ok
      refine .cons (.of_names ?_) (Emission.closes_shapesWith ofFields (fun typeCase listed => ?_) path _ made)
      · intro alternative shown
        obtain ⟨set, listed, rfl⟩ := List.mem_map.mp shown
        have tails := (List.cons.inj names).2
        refine List.mem_append_right _ ?_
        rw [tails]
        refine List.mem_map.mpr ⟨[field.setName set], List.mem_flatMap.mpr ⟨set, listed, ?_⟩, rfl⟩
        exact List.mem_map.mpr ⟨[], List.mem_cons_self, rfl⟩
      · apply closes_group (inCases typeCase listed)
        exact fun child member => belowCases typeCase listed child member (inCases typeCase listed child member)

/-- All types that the declarations show are scalars or among them. -/
theorem resolves_declarations (supplied : e.Supplied) {declared : List Declaration}
    (ok : declarations e = .ok declared) :
    ∀ own ∈ declared, e.Resolves (declared.map Declaration.name) own.leaves := by
  rw [declarations_eq] at ok
  have groups : ∀ operation ∈ e.compiled.operations, ∀ path parent,
      e.Closes (e.typeNames id) (group e path parent none operation.fields) := by
    intro operation member path parent
    have provided := supplied.fields operation member
    exact closes_group provided (fun field listed => closes (provided field listed)) path parent none
  obtain ⟨closed, names⟩ := Emission.closed_declareAll supplied groups
    (fun fragment member => closes (supplied.fragments fragment member) _) ok
  exact closed.resolves names

end Flow

namespace TypeScript

variable {e : Emission} {path : List String} {field : ResponseField} {fields : List ResponseField}

/-- The object type comes last, and has the name of the path. -/
theorem pathName_mem_group {parent : String} {typenames : Option (List String)} {declared : List Declaration}
    (ok : group e path parent typenames fields = .ok declared) :
    pathName e path ∈ declared.map Declaration.name := by
  obtain ⟨below, _, ok⟩ := bind_eq_ok.mp ok
  obtain ⟨own, recorded, ok⟩ := bind_eq_ok.mp ok
  cases ok
  obtain ⟨members, _, recorded⟩ := bind_eq_ok.mp recorded
  cases recorded
  simp [Declaration.name]

theorem setNames_subset (diverges : field.propertySets e.schema ≠ []) {declarations : List Declaration}
    (ok : e.shapesWith (group e) path field = .ok declarations) :
    setNames e path field (field.propertySets e.schema) ⊆ declarations.map Declaration.name := by
  have someCase : field.cases ≠ [] := by
    intro none
    exact diverges (by simp [propertySets, none])
  obtain ⟨inCases, cases, ok⟩ := bind_eq_ok.mp ok
  obtain ⟨others, rest, ok⟩ := bind_eq_ok.mp ok
  cases ok
  have ofCase {set : PropertySet} (listed : set ∈ field.cases.map TypeCase.shape) :
      pathName e (path ++ [field.setName set]) ∈ inCases.map Declaration.name := by
    obtain ⟨typeCase, member, rfl⟩ := List.mem_map.mp listed
    obtain ⟨part, made, inside⟩ := exists_infix_of_gather cases member
    exact List.map_subset _ inside.subset (pathName_mem_group made)
  intro name shown
  obtain ⟨set, listed, rfl⟩ := List.mem_map.mp shown
  rw [List.map_append, List.mem_append]
  rcases propertySets_eq e.schema someCase with sets | ⟨sets, _⟩
  · have present : (field.propertySets e.schema).any (·.condition.isNone) = true := by simp [sets]
    rw [sets, List.mem_append] at listed
    rcases listed with listed | last
    · exact .inl (ofCase listed)
    · right
      cases List.mem_singleton.mp last
      unfold Emission.otherWith at rest
      rw [if_pos present] at rest
      exact pathName_mem_group rest
  · rw [sets] at listed
    exact .inl (ofCase listed)

def RefersBelow (e : Emission) (field : ResponseField) : Prop :=
  ∀ path parent typenames written below, member e path parent typenames field = .ok written →
    (e.isComposite field = true → shapes e (path ++ [field.responseName]) field = .ok below) →
    e.Resolves (e.typeNames (declarationName e) ++ below.map Declaration.name) written.type.leaves

theorem resolves_members (each : ∀ field ∈ fields, RefersBelow e field) {parent : String}
    {typenames : Option (List String)} {written : List (Member MemberType)} {below : List Declaration}
    (ok : members e path parent typenames fields = .ok written)
    (nests : nested e path fields = .ok below) :
    e.Resolves (e.typeNames (declarationName e) ++ below.map Declaration.name)
      (written.flatMap fun member => member.type.leaves) := by
  rw [members_eq] at ok
  rw [nested_eq] at nests
  apply Emission.Resolves.flatMap
  intro shown listed
  obtain ⟨field, member, made⟩ := exists_of_mem_mapM ok listed
  obtain ⟨part, ofField, inside⟩ := exists_infix_of_gather nests member
  have resolves := each field member path parent typenames shown part made fun composite => by
    rwa [if_pos composite] at ofField
  refine resolves.mono (List.append_subset.mpr ⟨List.subset_append_left _ _, ?_⟩)
  exact List.Subset.trans (List.map_subset _ inside.subset) (List.subset_append_right _ _)

theorem reaches (provided : field.Everywhere e.compiled.ProvidesFor) : RefersBelow e field := by
  induction field using induction_below with
  | step field below _ =>
    intro path parent typenames written declared ok nests
    obtain ⟨covers, inFields, _⟩ := everywhere_iff.mp provided
    rw [member_eq] at ok
    obtain ⟨type, typed, ok⟩ := bind_eq_ok.mp ok
    cases ok
    unfold memberType at typed
    dsimp only at typed ⊢
    split at typed
    · cases typed
      exact nofun
    · split at typed
      · rename_i simple
        have isLeaf : ¬e.isComposite field = true := by simpa using simple
        have provided := covers.resolve_left isLeaf
        exact (Emission.resolves_leafType typed provided).mono (List.subset_append_left _ _)
      · rename_i composite
        have hasFields : e.isComposite field = true := by simpa using composite
        have nests := nests hasFields
        obtain ⟨around, _, typed⟩ := bind_eq_ok.mp typed
        split at typed
        · rename_i uniform
          rw [shapes_of_uniform uniform] at nests
          obtain ⟨inner, made, typed⟩ := bind_eq_ok.mp typed
          cases typed
          rw [MemberType.leaves, MemberType.leavesAll_eq]
          exact resolves_members (fun child member => below child member (inFields child member)) made nests
        · rename_i diverges
          cases typed
          rw [shapes_of_shapes diverges] at nests
          exact (Emission.Resolves.of_names (setNames_subset diverges nests)).mono (List.subset_append_right _ _)

theorem closes_group (provided : ∀ field ∈ fields, field.Everywhere e.compiled.ProvidesFor)
    (each : ∀ field ∈ fields, ∀ path, e.Closes (e.typeNames (declarationName e)) (shapes e path field))
    (path : List String) (parent : String) (typenames : Option (List String)) :
    e.Closes (e.typeNames (declarationName e)) (group e path parent typenames fields) := by
  intro declarations ok
  obtain ⟨below, nests, ok⟩ := bind_eq_ok.mp ok
  obtain ⟨own, recorded, ok⟩ := bind_eq_ok.mp ok
  cases ok
  obtain ⟨written, made, recorded⟩ := bind_eq_ok.mp recorded
  cases recorded
  have resolves := resolves_members (fun field listed => reaches (provided field listed)) made nests
  rw [nested_eq] at nests
  exact (Emission.closes_nestedWith each path _ nests).concat resolves

theorem closes (provided : field.Everywhere e.compiled.ProvidesFor) (path : List String) :
    e.Closes (e.typeNames (declarationName e)) (shapes e path field) := by
  induction field using induction_below generalizing path with
  | step field below belowCases =>
    obtain ⟨_, inFields, inCases⟩ := everywhere_iff.mp provided
    have each := fun child member => below child member (inFields child member)
    by_cases uniform : field.propertySets e.schema = []
    · rw [shapes_of_uniform uniform, nested_eq]
      exact Emission.closes_nestedWith each path
    · rw [shapes_of_shapes uniform]
      refine Emission.closes_shapesWith (closes_group inFields each) (fun typeCase listed => ?_) path
      apply closes_group (inCases typeCase listed)
      exact fun child member => belowCases typeCase listed child member (inCases typeCase listed child member)

theorem closes_fragment {fragment : CompiledFragment} (provided : fragment.toField.Everywhere e.compiled.ProvidesFor) :
    e.Closes (e.typeNames (declarationName e)) (fragmentDeclarations e fragment) := by
  have inFields := (everywhere_iff.mp provided).2.1
  by_cases uniform : fragment.toField.propertySets e.schema = []
  · rw [fragmentDeclarations_of_uniform uniform]
    exact closes_group inFields (fun field listed => closes (inFields field listed)) _ _ _
  · rw [fragmentDeclarations_of_shapes uniform]
    intro declared ok
    obtain ⟨below, shaped, ok⟩ := bind_eq_ok.mp ok
    cases ok
    have names := setNames_subset uniform shaped
    rw [← shapes_of_shapes uniform] at shaped
    apply (closes provided _ _ shaped).concat
    exact (Emission.Resolves.of_names names).mono (List.subset_append_right _ _)

/-- The method of an operation refers to types used and to the declaration of the operation. -/
theorem resolves_method (supplied : e.Supplied) (synthesized : e.synthesized = true)
    {operation : CompiledOperation} {entry : Method} (ok : method? e operation = .ok (some entry)) :
    e.Resolves (e.typeNames (declarationName e)) (entry.parameters.flatMap fun parameter => parameter.2.leaves) ∧
      entry.result = declarationName e (operation.name ++ operation.kind.suffix) := by
  unfold method? at ok
  split at ok
  · cases ok
  · obtain ⟨found, looked, ok⟩ := bind_eq_ok.mp ok
    cases found with
    | none => cases ok
    | some definition =>
      obtain ⟨parameters, made, ok⟩ := bind_eq_ok.mp ok
      cases ok
      refine ⟨?_, rfl⟩
      obtain ⟨root, starts, listed⟩ := rootDefinition?_eq_ok looked
      apply Emission.Resolves.flatMap
      intro parameter inParameters
      obtain ⟨argument, inArguments, done⟩ := exists_of_mem_mapM made inParameters
      obtain ⟨type, typed, done⟩ := bind_eq_ok.mp done
      cases done
      have provided := supplied.arguments synthesized _ root starts definition
        (List.mem_of_find?_eq_some listed) argument inArguments
      exact Emission.resolves_leafType typed provided

theorem resolves_methods (supplied : e.Supplied) {methods : List Declaration}
    (ok : allMethods e = .ok methods) {names : List String}
    (named : ∀ operation ∈ e.compiled.operations,
      declarationName e (operation.name ++ operation.kind.suffix) ∈ names) :
    ∀ own ∈ methods, e.Resolves (e.typeNames (declarationName e) ++ names) own.leaves := by
  intro declaration member
  unfold allMethods at ok
  split at ok
  · rename_i synthesized
    obtain ⟨lists, made, rfl⟩ := gather_eq_ok ok
    obtain ⟨group, inMethods, member⟩ := List.mem_flatten.mp member
    obtain ⟨kind, _, done⟩ := exists_of_mem_mapM made inMethods
    unfold methodDeclarations at done
    dsimp only at done
    split at done
    · cases done
      cases member
    · obtain ⟨entries, made, done⟩ := bind_eq_ok.mp done
      cases done
      rw [List.mem_singleton.mp member]
      apply Emission.Resolves.flatMap
      intro entry listed
      obtain ⟨found, inEntries, same⟩ := List.mem_filterMap.mp listed
      cases same
      obtain ⟨operation, ofKind, looked⟩ := exists_of_mem_mapM made inEntries
      obtain ⟨parameters, result⟩ := resolves_method supplied synthesized looked
      have known := named operation (List.mem_of_mem_filter ofKind)
      rw [← result] at known
      refine (parameters.mono (List.subset_append_left _ _)).append ?_
      exact .of_names (List.cons_subset.mpr ⟨List.mem_append_right _ known, List.nil_subset _⟩)
  · cases ok
    cases member

/-- All types that the declarations show are scalars or among them. -/
theorem resolves_declarations (supplied : e.Supplied) {declared : List Declaration}
    (ok : declarations e = .ok declared) :
    ∀ own ∈ declared, e.Resolves (declared.map Declaration.name) own.leaves := by
  rw [declarations_eq] at ok
  obtain ⟨shared, made, ok⟩ := bind_eq_ok.mp ok
  obtain ⟨methods, ofMethods, ok⟩ := bind_eq_ok.mp ok
  cases ok
  have groups : ∀ operation ∈ e.compiled.operations, ∀ path parent,
      e.Closes (e.typeNames (declarationName e)) (group e path parent none operation.fields) := by
    intro operation member path parent
    have provided := supplied.fields operation member
    exact closes_group provided (fun field listed => closes (provided field listed)) path parent none
  obtain ⟨closed, names⟩ := Emission.closed_declareAll supplied groups
    (fun fragment member => closes_fragment (supplied.fragments fragment member)) made
  refine (closed.extend (resolves_methods supplied ofMethods fun operation member => ?_)).resolves ?_
  · obtain ⟨block, declared, inside⟩ := Emission.exists_infix_of_declareAll made member
    obtain ⟨parameters, _, declared⟩ := bind_eq_ok.mp declared
    obtain ⟨selections, ofFields, declared⟩ := bind_eq_ok.mp declared
    cases declared
    have named := pathName_mem_group ofFields
    rw [pathName, String.intercalate_singleton] at named
    refine List.map_subset _ inside.subset ?_
    rw [List.map_append]
    exact List.mem_append_right _ named
  · intro name known
    rw [List.map_append]
    exact List.mem_append_left _ (names known)

end TypeScript

inductive Emission.Emits (e : Emission) : Target → Dialect → List Declaration → Prop
  | flow {declared : List Declaration} (ok : Flow.declarations e = .ok declared) :
    Emits e .flow Flow.dialect declared
  | typeScript {declared : List Declaration} (ok : TypeScript.declarations e = .ok declared) :
    Emits e .typeScript (TypeScript.dialect e.options.preferInterfaces) declared

namespace Emission.Emits

variable {e : Emission} {target : Target} {dialect : Dialect} {declared : List Declaration}

theorem resolves (emits : e.Emits target dialect declared) (supplied : e.Supplied) :
    ∀ own ∈ declared, e.Resolves (declared.map Declaration.name) own.leaves := by
  cases emits with
  | flow ok => exact Flow.resolves_declarations supplied ok
  | typeScript ok => exact TypeScript.resolves_declarations supplied ok

theorem hasHeadings (emits : e.Emits target dialect declared) : Declaration.HasHeadings dialect := by
  cases emits with
  | flow ok => exact Flow.hasHeadings
  | typeScript ok => exact TypeScript.hasHeadings _

end Emission.Emits

theorem Emission.exists_emits {e : Emission} {target : Target}
    (structural : target = .flow ∨ target = .typeScript) {text : String} (written : e.source target = .ok text) :
    ∃ dialect declared, e.Emits target dialect declared ∧ text = Declaration.source dialect declared := by
  rcases structural with rfl | rfl
  · obtain ⟨declared, ok, same⟩ := Flow.source_eq_ok written
    exact ⟨_, declared, .flow ok, same⟩
  · obtain ⟨declared, ok, written⟩ := bind_eq_ok.mp written
    cases written
    exact ⟨_, declared, .typeScript ok, rfl⟩

/-- In a source for Flow or TypeScript, every named type is a scalar, or it is declared under exactly this name
    and exported by the source. -/
theorem generated_types_exported {path : Option String} {text : String} {schema : Schema}
    (read : Schema.read path text = .ok schema) (inputs : schema.InputFields) {document : Option Document}
    {target : Target} (structural : target = .flow ∨ target = .typeScript) {options : Options}
    {artifacts : Artifacts} (done : schema.generate document target options = .ok artifacts) :
    ∃ e dialect declared, Emission.schema e = schema ∧ e.options = options.forTarget target ∧
      e.Emits target dialect declared ∧
      artifacts.source = Declaration.source dialect declared ∧
      ∀ own ∈ declared, ∀ leaf ∈ own.leaves, (∃ text, leaf = .scalar text ∧ e.IsScalar text) ∨
        ∃ name ∈ declared.map Declaration.name, leaf = .reference name ∧
          Declaration.Exports artifacts.source name := by
  obtain ⟨valid, prepared, compiled, checked, prepares, compiles, written⟩ := Schema.generate_eq_ok done
  obtain ⟨leaves, same, _⟩ := prepared.exists_leaves compiles
  have supplied := Emission.supplied_of_compile (Schema.readable_of_read read) inputs checked prepares compiles
    (options.forTarget target)
  obtain ⟨dialect, declared, emits, source⟩ := Emission.exists_emits structural written
  let e : Emission := ⟨compiled, options.forTarget target, document.isNone⟩
  refine ⟨e, dialect, declared, same, rfl, emits, source, ?_⟩
  intro own member leaf shown
  rcases emits.resolves supplied own member leaf shown with scalar | ⟨name, listed, refers⟩
  · exact .inl scalar
  · obtain ⟨other, inSource, rfl⟩ := List.mem_map.mp listed
    refine .inr ⟨other.name, listed, refers, ?_⟩
    rw [source]
    exact Declaration.exports_source emits.hasHeadings inSource

/-- The default operations of a schema with a union, an input object that refers to itself, and arguments. -/
theorem generated_types_exported_library :
    Schema.read none Library.text = .ok Library.schema ∧ Library.schema.InputFields ∧
      ∃ artifacts, Library.schema.generate none .typeScript { pascalCase := true } = .ok artifacts ∧
        ∃ e dialect declared, Emission.schema e = Library.schema ∧ e.options = { pascalCase := true } ∧
          e.Emits .typeScript dialect declared ∧
          artifacts.source = Declaration.source dialect declared ∧
          ∀ own ∈ declared, ∀ leaf ∈ own.leaves, (∃ text, leaf = .scalar text ∧ e.IsScalar text) ∨
            ∃ name ∈ declared.map Declaration.name, leaf = .reference name ∧
              Declaration.Exports artifacts.source name := by
  have readable := Schema.readable_of_read Library.read
  have inputs : Library.schema.InputFields := by decide
  obtain ⟨items, _, built⟩ := bind_eq_ok.mp Library.read
  obtain ⟨operations, made, plain, distinct⟩ :=
    Schema.exists_defaultDocument built readable Library.sound Library.shallow
  have checked := Schema.validDocument_none made plain distinct .typeScript
  have valid : ({ pascalCase := true } : Options).validate = .ok () := rfl
  obtain ⟨artifacts, done⟩ := Schema.exists_artifacts_of_plain plain readable Library.sound.string checked valid
  exact ⟨Library.read, inputs, artifacts, done,
    generated_types_exported Library.read inputs (.inr rfl) done⟩

end QueryTypes
