import QueryTypes.Proofs.Emitting

namespace QueryTypes

open ResponseField

def Declaration.name : Declaration → String
  | .record name _ _ => name
  | .enum name _ _ => name
  | .union name _ => name
  | .methods name _ => name

namespace Flow

def Prolongs (short long : String) : Prop := short.toList ++ ['_'] <+: long.toList

instance (short long : String) : Decidable (Prolongs short long) :=
  inferInstanceAs (Decidable (_ <+: _))

/-- Two paths that lead on from one selection have different names, whatever leads to the selection. -/
def Differ (left right : List String) : Prop :=
  ∀ path, path ≠ [] → pathName (path ++ left) ≠ pathName (path ++ right)

variable {a b : String} {left right : List String}

theorem pathName_append {path rest : List String} (some : path ≠ []) (more : rest ≠ []) :
    (pathName (path ++ rest)).toList = (pathName path).toList ++ '_' :: (pathName rest).toList := by
  have joined : pathName (path ++ rest) = pathName path ++ "_" ++ pathName rest :=
    String.intercalate_append_of_ne_nil some more
  rw [joined, String.toList_append, String.toList_append, List.append_assoc]
  rfl

/-- A path starts with its first name, and what follows starts with an underscore. -/
theorem exists_toList_pathName (a : String) (path : List String) :
    ∃ rest, (pathName (a :: path)).toList = a.toList ++ rest ∧ (rest = [] ∨ ∃ more, rest = '_' :: more) := by
  cases path with
  | nil => exact ⟨[], by simp [pathName], .inl rfl⟩
  | cons b path =>
    have joined := pathName_append (List.cons_ne_nil a []) (List.cons_ne_nil b path)
    refine ⟨'_' :: (pathName (b :: path)).toList, ?_, .inr ⟨_, rfl⟩⟩
    exact joined.trans (by simp [pathName])

theorem differ_nil_cons (a : String) (path : List String) : Differ [] (a :: path) := by
  intro leading some same
  have longer := congrArg (List.length ∘ String.toList) same
  have joined := congrArg List.length (pathName_append some (List.cons_ne_nil a path))
  simp only [Function.comp_apply, List.append_nil] at longer
  rw [← longer, List.length_append, List.length_cons] at joined
  omega

theorem Differ.cons (differ : Differ left right) (a : String) : Differ (a :: left) (a :: right) := by
  intro path _
  rw [List.append_cons path a left, List.append_cons path a right]
  exact differ (path ++ [a]) (by simp)

/-- Of two texts that go on with an underscore or end, the shorter one is extended by the other. -/
theorem prolongs_of_append_eq {rest more : List Char} (same : a.toList ++ rest = b.toList ++ more)
    (goesOn : rest = [] ∨ ∃ tail, rest = '_' :: tail) (shorter : a.toList.length ≤ b.toList.length) :
    a = b ∨ Prolongs a b := by
  obtain ⟨between, longer⟩ : a.toList <+: b.toList := by
    apply List.prefix_of_prefix_length_le (List.prefix_append _ rest) _ shorter
    rw [same]
    exact List.prefix_append _ _
  rw [← longer, List.append_assoc, List.append_cancel_left_eq] at same
  cases between with
  | nil =>
    left
    apply String.toList_injective
    rw [← longer, List.append_nil]
  | cons next between =>
    right
    rcases goesOn with none | ⟨tail, underscore⟩
    · rw [none] at same
      cases same
    · rw [underscore] at same
      cases same
      exact ⟨between, by rw [← longer]; simp⟩

theorem differ_of_ne (ne : a ≠ b) (short : ¬Prolongs a b) (long : ¬Prolongs b a)
    (left right : List String) : Differ (a :: left) (b :: right) := by
  intro path some same
  have texts := congrArg String.toList same
  rw [pathName_append some (List.cons_ne_nil _ _), pathName_append some (List.cons_ne_nil _ _),
    List.append_cancel_left_eq] at texts
  obtain ⟨rest, ofLeft, restGoesOn⟩ := exists_toList_pathName a left
  obtain ⟨more, ofRight, moreGoesOn⟩ := exists_toList_pathName b right
  rw [ofLeft, ofRight] at texts
  have texts := (List.cons.inj texts).2
  rcases Nat.le_total a.toList.length b.toList.length with le | le
  · rcases prolongs_of_append_eq texts restGoesOn le with equal | extended
    · exact ne equal
    · exact short extended
  · rcases prolongs_of_append_eq texts.symm moreGoesOn le with equal | extended
    · exact ne equal.symm
    · exact long extended

def Clear (names : List String) : Prop := ∀ a ∈ names, ∀ b ∈ names, ¬Prolongs a b

instance (names : List String) : Decidable (Clear names) :=
  inferInstanceAs (Decidable (∀ a ∈ names, ∀ b ∈ names, ¬Prolongs a b))

theorem clear_nil : Clear [] := fun _ member => absurd member List.not_mem_nil

section Paths

variable (e : Emission)

mutual
def paths : List ResponseField → List (List String)
  | [] => []
  | field :: rest =>
    (if e.isComposite field then (pathsBelow field).map (field.responseName :: ·) else []) ++ paths rest

/-- The paths from a field to all selections below it, itself first. A shape is one step of a path. -/
def pathsBelow : ResponseField → List (List String)
  | ⟨responseName, fieldName, type, description, isConditional, fields, spreads, cases⟩ =>
    let field : ResponseField :=
      ⟨responseName, fieldName, type, description, isConditional, fields, spreads, cases⟩
    [] :: match field.propertySets e.schema with
      | [] => paths fields
      | sets => casePaths cases ++
        if sets.any (·.condition.isNone) then ([] :: paths fields).map (type.baseName :: ·) else []

def casePaths : List (TypeCase ResponseField) → List (List String)
  | [] => []
  | typeCase :: rest => casePath typeCase ++ casePaths rest

def casePath : TypeCase ResponseField → List (List String)
  | ⟨condition, _, fields, _⟩ => ([] :: paths fields).map (condition :: ·)
end

end Paths

variable {e : Emission} {field : ResponseField} {fields : List ResponseField}

theorem paths_eq_flatMap (fields : List ResponseField) :
    paths e fields = fields.flatMap fun field =>
      if e.isComposite field then (pathsBelow e field).map (field.responseName :: ·) else [] := by
  induction fields with
  | nil => rfl
  | cons field rest ih => rw [paths, ih, List.flatMap_cons]

theorem paths_eq (fields : List ResponseField) :
    paths e fields = (fields.filter e.isComposite).flatMap fun field =>
      (pathsBelow e field).map (field.responseName :: ·) := by
  rw [paths_eq_flatMap]
  induction fields with
  | nil => rfl
  | cons field rest ih =>
    rw [List.flatMap_cons, ih, List.filter_cons]
    split <;> simp

theorem casePaths_eq (cases : List (TypeCase ResponseField)) :
    casePaths e cases = cases.flatMap fun typeCase =>
      ([] :: paths e typeCase.fields).map (typeCase.condition :: ·) := by
  induction cases with
  | nil => rfl
  | cons typeCase rest ih =>
    rw [casePaths, ih, List.flatMap_cons, casePath]

theorem pathsBelow_of_uniform (uniform : field.propertySets e.schema = []) :
    pathsBelow e field = [] :: paths e field.fields := by
  cases field
  rw [pathsBelow, uniform]

theorem pathsBelow_of_diverging (diverges : field.propertySets e.schema ≠ []) :
    pathsBelow e field = [] :: (casePaths e field.cases ++
      if (field.propertySets e.schema).any (·.condition.isNone) then
        ([] :: paths e field.fields).map (field.type.baseName :: ·)
      else []) := by
  cases field
  rw [pathsBelow]
  dsimp only
  split
  · contradiction
  · rfl

theorem pathsBelow_of_shapes (diverges : field.propertySets e.schema ≠ []) :
    pathsBelow e field = [] :: (field.propertySets e.schema).flatMap fun set =>
      ([] :: paths e set.fields).map (field.setName set :: ·) := by
  have cases : field.cases ≠ [] := by
    intro none
    exact diverges (by simp [propertySets, none])
  rw [pathsBelow_of_diverging diverges, casePaths_eq]
  congr 1
  rcases propertySets_eq e.schema cases with sets | ⟨sets, _⟩
  · have other : (field.propertySets e.schema).any (·.condition.isNone) = true := by
      simp [sets]
    rw [other, sets, List.flatMap_append, List.flatMap_map]
    simp [TypeCase.shape, setName]
  · have other : (field.propertySets e.schema).any (·.condition.isNone) = false := by
      simp [sets, TypeCase.shape]
    rw [other, sets, List.flatMap_map]
    simp [TypeCase.shape, setName]

def namesAt (path : List String) (ends : List (List String)) : List String :=
  ends.map fun onward => pathName (path ++ onward)

theorem namesAt_flatMap {α : Type} (path : List String) (xs : List α) (ends : α → List (List String)) :
    namesAt path (xs.flatMap ends) = xs.flatMap fun x => namesAt path (ends x) := List.map_flatMap ..

theorem namesAt_cons (path : List String) (a : String) (ends : List (List String)) :
    namesAt path (ends.map (a :: ·)) = namesAt (path ++ [a]) ends := by
  simp [namesAt]

theorem name_record {path : List String} {parent : String} {typenames : Option (List String)}
    {declaration : Declaration} (ok : record e path parent typenames fields = .ok declaration) :
    declaration.name = pathName path := by
  obtain ⟨members, _, ok⟩ := bind_eq_ok.mp ok
  cases ok
  rfl

def NamedByPaths (e : Emission) (field : ResponseField) : Prop :=
  ∀ path declarations, selection e path field = .ok declarations →
    declarations.map Declaration.name = namesAt path (pathsBelow e field)

theorem names_nested (each : ∀ field ∈ fields, NamedByPaths e field) {path : List String}
    {declarations : List Declaration} (ok : nested e path fields = .ok declarations) :
    declarations.map Declaration.name = namesAt path (paths e fields) := by
  rw [nested_eq] at ok
  rw [paths_eq_flatMap, namesAt_flatMap]
  refine map_of_gather (fun field member part made => ?_) ok
  split at made
  · rename_i composite
    rw [if_pos composite, namesAt_cons]
    exact each field member _ _ made
  · rename_i simple
    cases made
    rw [if_neg simple]
    rfl

theorem names_group (each : ∀ field ∈ fields, NamedByPaths e field) {path : List String} {parent : String}
    {typenames : Option (List String)} {declarations : List Declaration}
    (ok : group e path parent typenames fields = .ok declarations) :
    declarations.map Declaration.name = namesAt path ([] :: paths e fields) := by
  obtain ⟨own, recorded, ok⟩ := bind_eq_ok.mp ok
  obtain ⟨below, nests, ok⟩ := bind_eq_ok.mp ok
  cases ok
  rw [List.map_cons, name_record recorded, names_nested each nests]
  simp [namesAt]

theorem names_shapesWith (ofFields : ∀ child ∈ field.fields, NamedByPaths e child)
    (ofCases : ∀ typeCase ∈ field.cases, ∀ child ∈ typeCase.fields, NamedByPaths e child) {path : List String}
    {declarations : List Declaration} (ok : e.shapesWith (group e) path field = .ok declarations) :
    declarations.map Declaration.name = namesAt path (casePaths e field.cases ++
      if (field.propertySets e.schema).any (·.condition.isNone) then
        ([] :: paths e field.fields).map (field.type.baseName :: ·)
      else []) := by
  obtain ⟨inCases, cases, ok⟩ := bind_eq_ok.mp ok
  obtain ⟨others, rest, ok⟩ := bind_eq_ok.mp ok
  cases ok
  have caseNames : inCases.map Declaration.name = namesAt path (casePaths e field.cases) := by
    rw [casePaths_eq, namesAt_flatMap]
    refine map_of_gather (fun typeCase member part made => ?_) cases
    rw [names_group (ofCases typeCase member) made, namesAt_cons]
  have otherNames : others.map Declaration.name = namesAt path
      (if (field.propertySets e.schema).any (·.condition.isNone) then
        ([] :: paths e field.fields).map (field.type.baseName :: ·) else []) := by
    unfold Emission.otherWith at rest
    split at rest
    · rename_i present
      rw [if_pos present, namesAt_cons, names_group ofFields rest]
    · rename_i absent
      cases rest
      rw [if_neg absent]
      rfl
  rw [List.map_append, caseNames, otherNames]
  simp [namesAt]

theorem named (field : ResponseField) : NamedByPaths e field := by
  induction field using induction_below with
  | step field below belowCases =>
    intro path declarations ok
    by_cases uniform : field.propertySets e.schema = []
    · rw [selection_of_uniform uniform] at ok
      rw [pathsBelow_of_uniform uniform]
      exact names_group below ok
    · rw [selection_of_shapes uniform] at ok
      obtain ⟨shapes, made, ok⟩ := bind_eq_ok.mp ok
      cases ok
      rw [List.map_cons, names_shapesWith below belowCases made, pathsBelow_of_diverging uniform]
      simp only [namesAt, choice, Declaration.name, List.map_cons, List.append_nil]

def branching (e : Emission) (fields : List ResponseField) : List String :=
  keys (fields.filter e.isComposite)

/-- Of the names that stand side by side directly below a field, none is another one followed by an
    underscore and more, and those of the shapes are distinct. -/
structure Unmixed (e : Emission) (field : ResponseField) : Prop where
  fields : Clear (branching e field.fields)
  cases : ∀ typeCase ∈ field.cases, Clear (branching e typeCase.fields)
  shapes : Clear (field.shapeNames e.schema)
  distinct : (field.shapeNames e.schema).Nodup

theorem pairwise_map_cons {ends : List (List String)} (pairwise : ends.Pairwise Differ) (a : String) :
    (ends.map (a :: ·)).Pairwise Differ :=
  pairwise.map _ fun _ _ differ => differ.cons a

theorem pairwise_nil_cons {ends : List (List String)} (pairwise : ends.Pairwise Differ)
    (onward : [] ∉ ends) : ([] :: ends).Pairwise Differ := by
  refine List.pairwise_cons.mpr ⟨?_, pairwise⟩
  intro path member
  cases path with
  | nil => exact absurd member onward
  | cons a path => exact differ_nil_cons a path

theorem nil_not_mem_paths : [] ∉ paths e fields := by
  simp [paths_eq]

theorem pairwise_paths (unique : (keys fields).Nodup) (clear : Clear (branching e fields))
    (each : ∀ field ∈ fields, e.isComposite field → (pathsBelow e field).Pairwise Differ) :
    (paths e fields).Pairwise Differ := by
  rw [paths_eq, List.pairwise_flatMap]
  constructor
  · intro field member
    obtain ⟨inFields, composite⟩ := List.mem_filter.mp member
    exact pairwise_map_cons (each field inFields composite) _
  · have apart : (fields.filter e.isComposite).Pairwise fun x y => x.responseName ≠ y.responseName :=
      (List.pairwise_map.mp unique).filter _
    apply apart.imp_of_mem
    intro x y inX inY ne left fromX right fromY
    obtain ⟨p, _, rfl⟩ := List.mem_map.mp fromX
    obtain ⟨q, _, rfl⟩ := List.mem_map.mp fromY
    have keyX : x.responseName ∈ branching e fields := List.mem_map_of_mem inX
    have keyY : y.responseName ∈ branching e fields := List.mem_map_of_mem inY
    exact differ_of_ne ne (clear _ keyX _ keyY) (clear _ keyY _ keyX) p q

/-- Paths that part at names which do not extend each other have different names. -/
theorem pairwise_pathsBelow (kind : field.WellKeyed)
    (unmixed : field.Everywhere fun inner => e.isComposite inner → Unmixed e inner)
    (composite : e.isComposite field) : (pathsBelow e field).Pairwise Differ := by
  induction field using induction_below with
  | step field below belowCases =>
    obtain ⟨keyed, _, casesKeyed⟩ := wellKeyed_iff.mp kind
    obtain ⟨own, inFields, inCases⟩ := everywhere_iff.mp unmixed
    have own := own composite
    have ofFields : (paths e field.fields).Pairwise Differ := by
      apply pairwise_paths keyed.keys own.fields
      intro child member
      exact below child member (keyed.each child member) (inFields child member)
    by_cases uniform : field.propertySets e.schema = []
    · rw [pathsBelow_of_uniform uniform]
      exact pairwise_nil_cons ofFields nil_not_mem_paths
    · rw [pathsBelow_of_shapes uniform]
      apply pairwise_nil_cons _ (by simp)
      rw [List.pairwise_flatMap]
      constructor
      · intro set listed
        apply pairwise_map_cons
        apply pairwise_nil_cons _ nil_not_mem_paths
        rcases mem_fields_of_mem_propertySets listed with same | ⟨typeCase, member, same⟩
        · rwa [same]
        · rw [same]
          have kind := (casesKeyed.each typeCase member).fields
          apply pairwise_paths kind.keys (own.cases typeCase member)
          intro child inCase
          exact belowCases typeCase member child inCase (kind.each child inCase)
            (inCases typeCase member child inCase)
      · apply (List.pairwise_map.mp own.distinct).imp_of_mem
        intro x y inX inY ne left fromX right fromY
        obtain ⟨p, _, rfl⟩ := List.mem_map.mp fromX
        obtain ⟨q, _, rfl⟩ := List.mem_map.mp fromY
        have nameX : field.setName x ∈ field.shapeNames e.schema := List.mem_map_of_mem inX
        have nameY : field.setName y ∈ field.shapeNames e.schema := List.mem_map_of_mem inY
        exact differ_of_ne ne (own.shapes _ nameX _ nameY) (own.shapes _ nameY _ nameX) p q

theorem nodup_namesAt {path : List String} (some : path ≠ []) {ends : List (List String)}
    (pairwise : ends.Pairwise Differ) : (namesAt path ends).Nodup :=
  pairwise.map _ fun _ _ differ => differ path some

theorem name_of_mem_variables {operation : CompiledOperation} {parameters : List Declaration}
    (ok : e.variableRecords style id operation = .ok parameters) : ∀ declaration ∈ parameters,
      declaration.name = operation.name ++ operation.kind.suffix ++ "Variables" := by
  unfold Emission.variableRecords at ok
  split at ok
  · cases ok
    exact nofun
  · obtain ⟨members, _, ok⟩ := bind_eq_ok.mp ok
    cases ok
    intro declaration member
    rw [List.mem_singleton.mp member]
    rfl

theorem names_operationDeclarations {operation : CompiledOperation} {block : List Declaration}
    (ok : operationDeclarations e operation = .ok block) :
    ∃ parameters selections, block = parameters ++ selections ∧
      (∀ declaration ∈ parameters,
        declaration.name = operation.name ++ operation.kind.suffix ++ "Variables") ∧
      selections.map Declaration.name =
        namesAt [operation.name ++ operation.kind.suffix] ([] :: paths e operation.fields) := by
  rw [operationDeclarations_eq] at ok
  obtain ⟨parameters, ofParameters, ok⟩ := bind_eq_ok.mp ok
  obtain ⟨selections, made, ok⟩ := bind_eq_ok.mp ok
  cases ok
  exact ⟨parameters, selections, rfl, name_of_mem_variables ofParameters, names_group (fun field _ => named field) made⟩

theorem exists_infix_of_operation {declared : List Declaration} (ok : declarations e = .ok declared)
    {operation : CompiledOperation} (member : operation ∈ e.compiled.operations) :
    ∃ block, operationDeclarations e operation = .ok block ∧ block <:+: declared := by
  rw [declarations_eq] at ok
  rw [operationDeclarations_eq]
  exact Emission.exists_infix_of_declareAll ok member

theorem nodup_names (kind : FieldsWellKeyed fields) (clear : Clear (branching e fields))
    (unmixed : ∀ field, Within field fields → e.isComposite field → Unmixed e field) (name : String) :
    (namesAt [name] ([] :: paths e fields)).Nodup := by
  apply nodup_namesAt (List.cons_ne_nil _ _)
  apply pairwise_nil_cons _ nil_not_mem_paths
  apply pairwise_paths kind.keys clear
  intro field inFields
  apply pairwise_pathsBelow (kind.each field inFields)
  intro inner within
  exact unmixed inner (within.mono (List.cons_subset.mpr ⟨inFields, List.nil_subset _⟩))

end Flow

theorem Overlap.exists_artifacts_repeated : ∃ artifacts,
    Overlap.schema.generate (some (Document.ofQuery Overlap.repeated)) .flow {} = .ok artifacts := by
  apply Document.exists_artifacts_of_ofQuery rfl Overlap.repeated_run rfl rfl rfl rfl
  · have x : (Overlap.leaf "x").Writable := everywhere_of_leaf rfl rfl rfl
    have y : (Overlap.leaf "y").Writable := everywhere_of_leaf rfl rfl rfl
    refine List.forall_mem_singleton.mpr (everywhere_iff.mpr ⟨rfl, ?_, ?_⟩)
    · exact List.forall_mem_singleton.mpr x
    · refine List.forall_mem_singleton.mpr ?_
      exact List.forall_mem_cons.mpr ⟨x, List.forall_mem_singleton.mpr y⟩
  · decide

/-- The shapes of `n` are called `B` and `A`, and no field below `n` has subfields. -/
theorem Overlap.unmixed_repeated (e : Emission) (schema : e.schema = Overlap.schema) :
    Overlap.repeatedField.Everywhere fun field => e.isComposite field → Flow.Unmixed e field := by
  have simple (name : String) : e.isComposite (Overlap.leaf name) = false := by
    rw [Emission.isComposite, schema]
    rfl
  have below (name : String) :
      (Overlap.leaf name).Everywhere fun field => e.isComposite field → Flow.Unmixed e field := by
    refine everywhere_of_leaf ?_ rfl rfl
    intro composite
    rw [simple] at composite
    cases composite
  have nothing (names : List String) : Flow.branching e (names.map Overlap.leaf) = [] := by
    simp [Flow.branching, keys, simple]
  refine everywhere_iff.mpr ⟨fun _ => ⟨?_, ?_, ?_, ?_⟩, ?_, ?_⟩
  · have none : Flow.branching e Overlap.repeatedField.fields = [] := nothing ["x"]
    rw [none]
    exact Flow.clear_nil
  · refine List.forall_mem_singleton.mpr ?_
    have none : Flow.branching e [Overlap.leaf "x", Overlap.leaf "y"] = [] := nothing ["x", "y"]
    rw [none]
    exact Flow.clear_nil
  · rw [schema]
    have clear : Flow.Clear ["B", "A"] := by decide
    exact clear
  · rw [schema]
    have distinct : ["B", "A"].Nodup := by decide
    exact distinct
  · exact List.forall_mem_singleton.mpr (below "x")
  · refine List.forall_mem_singleton.mpr ?_
    exact List.forall_mem_cons.mpr ⟨below "x", List.forall_mem_singleton.mpr (below "y")⟩

-- A query that selects `b` below `a` and `a_b` beside it.
namespace Mixed

def query : TypeDefinition :=
  ⟨"Query", none, .object [] [⟨"a", none, [], .named "A"⟩, ⟨"a_b", none, [], .named "B"⟩]⟩

def items : List SchemaItem :=
  [.type query, .type ⟨"A", none, .object [] [⟨"b", none, [], .named "B"⟩]⟩,
    .type ⟨"B", none, .object [] [Overlap.int "x", Overlap.int "y"]⟩]

def schema : Schema := ⟨Schema.definitionsOf items, "Query", none, none⟩

def selections : List Selection :=
  [Overlap.field "a" [Overlap.field "b" [Overlap.field "x" []]],
    Overlap.field "a_b" [Overlap.field "y" []]]

def compiledFields : List ResponseField :=
  [⟨"a", "a", .named "A", none, false,
      [⟨"b", "b", .named "B", none, false, [Overlap.leaf "x"], [], []⟩], [], []⟩,
    ⟨"a_b", "a_b", .named "B", none, false, [Overlap.leaf "y"], [], []⟩]

theorem run : ((Document.ofQuery selections).compiler schema true).Run [] query false selections {}
    ⟨⟨compiledFields, []⟩, [], ["Int"]⟩ := Compiler.collectAll_eq_ok_iff.mp rfl

theorem exists_artifacts :
    ∃ artifacts, schema.generate (some (Document.ofQuery selections)) .flow {} = .ok artifacts := by
  apply Document.exists_artifacts_of_ofQuery rfl run rfl rfl rfl rfl
  · have x : (Overlap.leaf "x").Writable := everywhere_of_leaf rfl rfl rfl
    have y : (Overlap.leaf "y").Writable := everywhere_of_leaf rfl rfl rfl
    refine List.forall_mem_cons.mpr ⟨?_, List.forall_mem_singleton.mpr ?_⟩
    · exact everywhere_of_single rfl rfl rfl (everywhere_of_single rfl rfl rfl x)
    · exact everywhere_of_single rfl rfl rfl y
  · decide

end Mixed

/-- In Flow, the selections of an operation are declared under the joined paths that lead to them. These
    names are distinct unless somewhere two names side by side extend each other or are equal. -/
theorem flow_selection_names {schema : Schema} {document : Option Document} {options : Options}
    {artifacts : Artifacts} (done : schema.generate document .flow options = .ok artifacts) :
    ∃ valid prepared compiled declarations, schema.validDocument document .flow = .ok valid ∧
      valid.prepare schema (options.forTarget .flow).addTypename = .ok prepared ∧
      prepared.compile schema (options.forTarget .flow) = .ok compiled ∧
      artifacts.source = Declaration.source Flow.dialect declarations ∧
      let e : Emission := ⟨compiled, options.forTarget .flow, document.isNone⟩
      ∀ operation ∈ compiled.operations, ∃ parameters selections,
        parameters ++ selections <:+: declarations ∧
        (∀ declaration ∈ parameters,
          declaration.name = operation.name ++ operation.kind.suffix ++ "Variables") ∧
        selections.map Declaration.name = Flow.namesAt [operation.name ++ operation.kind.suffix]
          ([] :: Flow.paths e operation.fields) ∧
        (Flow.Clear (Flow.branching e operation.fields) →
          (∀ field, Within field operation.fields → e.isComposite field → Flow.Unmixed e field) →
          (selections.map Declaration.name).Nodup) := by
  obtain ⟨valid, prepared, compiled, isValid, prepares, compiles, written⟩ := Schema.generate_eq_ok done
  obtain ⟨declarations, declared, source⟩ := Flow.source_eq_ok written
  refine ⟨valid, prepared, compiled, declarations, isValid, prepares, compiles, source, ?_⟩
  intro e operation member
  obtain ⟨block, made, inside⟩ := Flow.exists_infix_of_operation declared member
  obtain ⟨parameters, selections, rfl, named, names⟩ := Flow.names_operationDeclarations made
  refine ⟨parameters, selections, inside, named, names, ?_⟩
  intro clear unmixed
  rw [names]
  exact Flow.nodup_names (Compiled.wellKeyed_operation compiles member) clear unmixed _

/-- The shapes of `n` are declared under names of their own. In the query `a { b { x } } a_b { y }` two
    different object types are called `QQuery_a_b`. -/
theorem flow_selection_names_mixed :
    (∃ artifacts declarations, Overlap.schema.generate (some (Document.ofQuery Overlap.repeated)) .flow {} =
        .ok artifacts ∧ artifacts.source = Declaration.source Flow.dialect declarations ∧
      ∃ selections, selections <:+: declarations ∧
        selections.map Declaration.name = ["QQuery", "QQuery_n", "QQuery_n_B", "QQuery_n_A"] ∧
        (selections.map Declaration.name).Nodup) ∧
    ∃ artifacts declarations, Mixed.schema.generate (some (Document.ofQuery Mixed.selections)) .flow {} =
        .ok artifacts ∧ artifacts.source = Declaration.source Flow.dialect declarations ∧
      ∃ selections, selections <:+: declarations ∧
        selections.map Declaration.name = ["QQuery", "QQuery_a", "QQuery_a_b", "QQuery_a_b"] := by
  constructor
  · obtain ⟨artifacts, done⟩ := Overlap.exists_artifacts_repeated
    obtain ⟨valid, prepared, compiled, declarations, isValid, prepares, compiles, source, each⟩ :=
      flow_selection_names done
    cases isValid
    cases prepares
    obtain ⟨also, operation, doneAlso, member, _⟩ := Document.compile_ofQuery rfl Overlap.repeated_run rfl rfl
    cases doneAlso.symm.trans compiles
    obtain ⟨same, _, known⟩ := Document.operation_of_ofQuery rfl Overlap.repeated_run compiles
    obtain ⟨name, kind, _, fields⟩ := known operation member
    obtain ⟨parameters, selections, inside, _, names, apart⟩ := each operation member
    obtain ⟨schema, operations, fragments, typesUsed⟩ := compiled
    subst same
    rw [fields] at names apart
    rw [name, kind] at names
    refine ⟨artifacts, declarations, done, source, selections,
      (List.suffix_append _ _).isInfix.trans inside, names, apart ?_ ?_⟩
    · have clear : Flow.Clear ["n"] := by decide
      exact clear
    · exact fun field within => Overlap.unmixed_repeated _ rfl field within
  · obtain ⟨artifacts, done⟩ := Mixed.exists_artifacts
    obtain ⟨valid, prepared, compiled, declarations, isValid, prepares, compiles, source, each⟩ :=
      flow_selection_names done
    cases isValid
    cases prepares
    obtain ⟨also, operation, doneAlso, member, _⟩ := Document.compile_ofQuery rfl Mixed.run rfl rfl
    cases doneAlso.symm.trans compiles
    obtain ⟨same, _, known⟩ := Document.operation_of_ofQuery rfl Mixed.run compiles
    obtain ⟨name, kind, _, fields⟩ := known operation member
    obtain ⟨parameters, selections, inside, _, names, _⟩ := each operation member
    refine ⟨artifacts, declarations, done, source, selections,
      (List.suffix_append _ _).isInfix.trans inside, ?_⟩
    rw [names, name, kind, fields]
    obtain ⟨schema, operations, fragments, typesUsed⟩ := compiled
    subst same
    rfl

end QueryTypes
