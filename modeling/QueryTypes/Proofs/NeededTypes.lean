import QueryTypes.Proofs.UsedTypes

namespace QueryTypes

namespace Compiler

/-- A field without subfields is selected, at any depth and through fragments, and this is the base name
    of its type. -/
def HasLeaf (c : Compiler) (root : TypeDefinition) (start : List Selection) (name : String) : Prop :=
  ∃ above head inner definition type, c.Selected root start above head inner ∧
    c.fieldType above head.name = .ok (definition, type) ∧ type.isComposite = false ∧
    definition.type.baseName = name

variable {c : Compiler} {parent root above type : TypeDefinition} {selections start inner : List Selection}
  {stack : List String} {conditional : Bool} {s s' : Collection} {head : FieldHead} {definition : FieldDefinition}

theorem Run.exists_of_mem (run : c.Run stack parent conditional selections s s') {selection : Selection}
    (member : selection ∈ selections) :
    ∃ t t', c.Run stack parent conditional [selection] t t' ∧ t'.leaves ⊆ s'.leaves := by
  obtain ⟨before, after, rfl⟩ := List.append_of_mem member
  obtain ⟨t, _, rest⟩ := run_append.mp run
  obtain ⟨t', single, last⟩ := run_append.mp (List.singleton_append ▸ rest : c.Run _ _ _ ([selection] ++ after) t s')
  exact ⟨t, t', single, last.leaves_subset⟩

theorem insideOf_of_applies {condition : TypeDefinition} (applies : c.opens parent condition = false) :
    c.insideOf parent condition = parent := by
  simp [insideOf, applies]

theorem insideOf_of_opens {condition : TypeDefinition} (opened : c.opens parent condition = true) :
    c.insideOf parent condition = condition := by
  simp [insideOf, opened]

/-- The selections of a fragment were compiled for the type that is in force in it. -/
theorem Run.exists_of_fragmentOn {selection : Selection} {condition : TypeDefinition}
    (run : c.Run stack parent conditional selections s s') (selected : selection ∈ selections)
    (fragment : c.FragmentOn parent selection condition inner) :
    ∃ stack conditional t t', c.Run stack (c.insideOf parent condition) conditional inner t t' ∧
      t'.leaves ⊆ s'.leaves := by
  obtain ⟨_, _, single, kept⟩ := run.exists_of_mem selected
  cases single with
  | leaf => cases fragment
  | composite => cases fragment
  | merge also _ applies inside after =>
    obtain ⟨rfl, rfl⟩ := fragment.unique also
    rw [insideOf_of_applies applies]
    exact ⟨_, _, _, _, inside, List.Subset.trans after.leaves_subset kept⟩
  | branch also _ opened inside after =>
    obtain ⟨rfl, rfl⟩ := fragment.unique also
    rw [insideOf_of_opens opened]
    exact ⟨_, _, _, _, inside, List.Subset.trans after.leaves_subset kept⟩
  | mention unmerged =>
    cases fragment with
    | spread merged => cases unmerged.symm.trans merged

theorem Run.exists_of_finds {branches : List String} (found : c.Finds parent selections branches above head inner)
    (run : c.Run stack parent conditional selections s s') :
    ∃ stack conditional span t t', c.Run stack above conditional [.field head span inner] t t' ∧
      t'.leaves ⊆ s'.leaves := by
  induction found generalizing stack conditional s s' with
  | here selected =>
    obtain ⟨t, t', single, kept⟩ := run.exists_of_mem selected
    exact ⟨stack, conditional, _, t, t', single, kept⟩
  | merged selected fragment applies _ ih =>
    obtain ⟨_, _, _, _, inside, kept⟩ := run.exists_of_fragmentOn selected fragment
    rw [insideOf_of_applies applies] at inside
    obtain ⟨stack, conditional, span, t, t', field, keptField⟩ := ih inside
    exact ⟨stack, conditional, span, t, t', field, List.Subset.trans keptField kept⟩
  | branched selected fragment opened _ ih =>
    obtain ⟨_, _, _, _, inside, kept⟩ := run.exists_of_fragmentOn selected fragment
    rw [insideOf_of_opens opened] at inside
    obtain ⟨stack, conditional, span, t, t', field, keptField⟩ := ih inside
    exact ⟨stack, conditional, span, t, t', field, List.Subset.trans keptField kept⟩

theorem Run.mem_leaves_of_field {span : Span} (run : c.Run stack above conditional [.field head span inner] s s')
    (looked : c.fieldType above head.name = .ok (definition, type)) (simple : type.isComposite = false) :
    type.name ∈ s'.leaves := by
  cases run with
  | leaf also _ after =>
    cases looked.symm.trans also
    exact after.leaves_subset ((mem_insertAll _ _ _).mpr (.inr (List.mem_singleton_self _)))
  | composite also hasFields =>
    cases looked.symm.trans also
    cases simple.symm.trans hasFields
  | merge fragment => cases fragment
  | branch fragment => cases fragment

theorem Run.exists_below {span : Span} (run : c.Run stack above conditional [.field head span inner] s s')
    (looked : c.fieldType above head.name = .ok (definition, type)) (hasFields : type.isComposite = true) :
    ∃ stack below, c.Run stack type false inner {} below ∧ below.leaves ⊆ s'.leaves := by
  cases run with
  | leaf also simple =>
    cases looked.symm.trans also
    cases simple.symm.trans hasFields
  | composite also _ inside after =>
    cases looked.symm.trans also
    exact ⟨_, _, inside, fun _ member => after.leaves_subset ((mem_insertAll _ _ _).mpr (.inr member))⟩
  | merge fragment => cases fragment
  | branch fragment => cases fragment

/-- Every field that is selected was compiled on its own, and its leaves are kept. -/
theorem Run.exists_of_selected (run : c.Run stack root conditional start {} s)
    (selected : c.Selected root start above head inner) :
    ∃ stack conditional span t t', c.Run stack above conditional [.field head span inner] t t' ∧
      t'.leaves ⊆ s.leaves := by
  induction selected with
  | top found => exact Run.exists_of_finds found run
  | deeper _ looked hasFields found ih =>
    obtain ⟨_, _, _, _, _, field, kept⟩ := ih
    obtain ⟨_, _, inside, keptInside⟩ := field.exists_below looked hasFields
    obtain ⟨stack, conditional, span, t, t', other, keptOther⟩ := Run.exists_of_finds found inside
    exact ⟨stack, conditional, span, t, t', other, List.Subset.trans keptOther (List.Subset.trans keptInside kept)⟩

theorem Selected.of_finds {within : TypeDefinition} {part : List Selection}
    (each : ∀ branches above head inner, c.Finds within part branches above head inner →
      c.Selected root start above head inner)
    (selected : c.Selected within part above head inner) : c.Selected root start above head inner := by
  induction selected with
  | top found => exact each _ _ _ _ found
  | deeper _ looked hasFields found ih => exact .deeper ih looked hasFields found

theorem HasLeaf.of_finds {within : TypeDefinition} {part : List Selection} {name : String}
    (leaf : c.HasLeaf within part name)
    (each : ∀ branches above head inner, c.Finds within part branches above head inner →
      c.Selected root start above head inner) : c.HasLeaf root start name := by
  obtain ⟨above, head, inner, definition, type, selected, rest⟩ := leaf
  exact ⟨above, head, inner, definition, type, selected.of_finds each, rest⟩

theorem HasLeaf.tail {selection : Selection} {name : String} (leaf : c.HasLeaf parent selections name) :
    c.HasLeaf parent (selection :: selections) name :=
  leaf.of_finds fun _ _ _ _ found => .top (found.widen (List.subset_cons_self _ _))

theorem Run.hasLeaf_of_mem (run : c.Run stack parent conditional selections s s') {name : String}
    (member : name ∈ s'.leaves) : name ∈ s.leaves ∨ c.HasLeaf parent selections name := by
  induction run with
  | nil => exact .inl member
  | @leaf _ parent _ head span inner rest _ _ _ _ looked simple _ ih =>
    rcases ih member with before | later
    · rcases (mem_insertAll _ _ _).mp before with earlier | here
      · exact .inl earlier
      · have named := Schema.name_of_type? (type?_of_fieldType looked).2
        rw [List.mem_singleton.mp here, named]
        exact .inr ⟨_, head, inner, _, _, .top (.here List.mem_cons_self), looked, simple, rfl⟩
    · exact .inr later.tail
  | @composite _ parent _ head span inner rest _ _ _ _ _ looked hasFields _ _ below ih =>
    rcases ih member with before | later
    · rcases (mem_insertAll _ _ _).mp before with earlier | inside
      · exact .inl earlier
      · have leaf := (below inside).resolve_left List.not_mem_nil
        exact .inr (leaf.of_finds fun _ _ _ _ found =>
          .deeper (.top (.here List.mem_cons_self)) looked hasFields found)
    · exact .inr later.tail
  | merge fragment _ applies _ _ below ih =>
    rcases ih member with before | later
    · rcases below before with earlier | inside
      · exact .inl (by simpa using earlier)
      · exact .inr (inside.of_finds fun _ _ _ _ found => .top (.merged List.mem_cons_self fragment applies found))
    · exact .inr later.tail
  | branch fragment _ opened _ _ below ih =>
    rcases ih member with before | later
    · rcases below before with earlier | inside
      · exact .inl (by simpa [Collection.enter] using earlier)
      · exact .inr (inside.of_finds fun _ _ _ _ found => .top (.branched List.mem_cons_self fragment opened found))
    · exact .inr later.tail
  | mention _ _ ih => exact (ih member).imp_right HasLeaf.tail

/-- The leaves of selections are the types of the fields without subfields among them. -/
theorem Run.mem_leaves_iff (run : c.Run stack root conditional start {} s) {name : String} :
    name ∈ s.leaves ↔ c.HasLeaf root start name := by
  constructor
  · exact fun member => (run.hasLeaf_of_mem member).resolve_left List.not_mem_nil
  · rintro ⟨above, head, inner, definition, type, selected, looked, simple, rfl⟩
    obtain ⟨_, _, _, _, _, field, kept⟩ := run.exists_of_selected selected
    rw [← Schema.name_of_type? (type?_of_fieldType looked).2]
    exact kept (field.mem_leaves_of_field looked simple)

end Compiler

inductive TypeDefinition.Declarable : TypeDefinition → Prop
  | enum {name description values} : Declarable ⟨name, description, .enum values⟩
  | input {name description fields} : Declarable ⟨name, description, .input fields⟩
  | scalar {name description} (custom : name ∉ builtInScalars) : Declarable ⟨name, description, .scalar⟩

theorem TypeDefinition.isDeclared_iff {type : TypeDefinition} : type.isDeclared = true ↔ type.Declarable := by
  obtain ⟨name, description, body⟩ := type
  constructor
  · intro declared
    cases body with
    | enum values => exact .enum
    | input fields => exact .input
    | scalar => exact .scalar (by simpa [isDeclared, isBuiltInScalar] using declared)
    | object | interface | union => simp [isDeclared] at declared
  · intro declarable
    cases declarable with
    | enum => rfl
    | input => rfl
    | scalar custom => simpa [isDeclared, isBuiltInScalar] using custom

def Schema.InputEdge (schema : Schema) (outer inner : String) : Prop :=
  ∃ type fields, schema.type? outer = some type ∧ type.body = .input fields ∧
    ∃ field ∈ fields, field.type.baseName = inner

theorem Schema.mem_next_inputGraph {schema : Schema} {outer inner : String} :
    inner ∈ schema.inputGraph.next outer ↔ schema.InputEdge outer inner := by
  unfold inputGraph
  rw [Graph.next_map]
  change inner ∈ ((schema.type? outer).map _).getD [] ↔ _
  cases found : schema.type? outer with
  | none => simp [InputEdge, found]
  | some type => cases body : type.body <;> simp [InputEdge, found, body, TypeDefinition.inputFields]

/-- A name is reached if it is one of the given ones, or there is a way along edges from one of them. -/
theorem Graph.mem_reach_iff {graph : Graph} {edge : String → String → Prop}
    (edges : ∀ outer inner, inner ∈ graph.next outer ↔ edge outer inner) {names : List String} {name : String} :
    name ∈ graph.reach names ↔ ∃ start ∈ names, Relation.ReflTransGen edge start name := by
  constructor
  · apply forall_mem_reach
    · rintro outer ⟨start, given, way⟩ inner next
      exact ⟨start, given, way.tail ((edges outer inner).mp next)⟩
    · exact fun start given => ⟨start, given, .refl⟩
  · rintro ⟨start, given, way⟩
    induction way with
    | refl => exact mem_reach_of_mem given
    | tail _ next ih => exact next_mem_reach ih ((edges _ _).mpr next)

theorem Schema.mem_typesUsed_iff {schema : Schema} {names : List String} {name : String} :
    name ∈ schema.typesUsed names ↔
      (∃ type, schema.type? name = some type ∧ type.Declarable) ∧
        ∃ start ∈ names, Relation.ReflTransGen schema.InputEdge start name := by
  unfold typesUsed
  rw [List.mem_filter, Graph.mem_reach_iff (fun _ _ => mem_next_inputGraph), Option.any_eq_true, and_comm]
  simp only [TypeDefinition.isDeclared_iff]

namespace Document

/-- A variable of an operation has this base type, or a field without subfields that is compiled in an
    operation or in a fragment. -/
inductive NamesType (schema : Schema) (merges : Bool) (document : Document) : String → Prop
  | parameter {operation definition} (member : operation ∈ document.operations)
    (listed : definition ∈ operation.parameters) : NamesType schema merges document definition.type.baseName
  | field {type start name} (starts : document.Starts schema type start)
    (leaf : (document.compiler schema merges).HasLeaf type start name) : NamesType schema merges document name

variable {schema : Schema} {document : Document} {options : Options} {compiled : Compiled}

/-- The types used are those that can be reached from the types that the document names. -/
theorem exists_namedTypes (done : document.compile schema options = .ok compiled) :
    ∃ names, compiled.typesUsed = schema.typesUsed names ∧
      ∀ name, name ∈ names ↔ document.NamesType schema options.mergeSpreads name := by
  obtain ⟨fragments, ofFragments, rest⟩ := bind_eq_ok.mp done
  obtain ⟨operations, ofOperations, rest⟩ := bind_eq_ok.mp rest
  cases rest
  refine ⟨_, rfl, fun name => ?_⟩
  rw [List.mem_append, List.mem_flatMap, List.mem_flatMap]
  constructor
  · rintro (⟨result, listed, member⟩ | ⟨result, listed, member⟩)
    · obtain ⟨source, inDocument, ok⟩ := exists_of_mem_mapM ofFragments listed
      obtain ⟨type, s, compiles, leaves⟩ := Compiler.fragment_eq_ok_iff.mp ok
      rw [leaves, compiles.run.mem_leaves_iff] at member
      exact .field (.inr ⟨source, inDocument, compiles.found, compiles.hasFields, rfl⟩) member
    · obtain ⟨source, inDocument, ok⟩ := exists_of_mem_mapM ofOperations listed
      obtain ⟨root, s, compiles, leaves⟩ := Compiler.operation_eq_ok_iff.mp ok
      rw [leaves, compiles.parameters, List.map_map, List.mem_append, compiles.run.mem_leaves_iff] at member
      rcases member with ofVariable | ofField
      · obtain ⟨definition, inOperation, rfl⟩ := List.mem_map.mp ofVariable
        exact .parameter inDocument inOperation
      · exact .field (.inl ⟨source, inDocument, compiles.starts, rfl⟩) ofField
  · rintro (⟨inDocument, inOperation⟩ |
      ⟨⟨source, inDocument, isRoot, rfl⟩ | ⟨source, inDocument, found, _, rfl⟩, leaf⟩)
    · obtain ⟨result, listed, ok⟩ := exists_of_mapM ofOperations inDocument
      obtain ⟨root, s, compiles, leaves⟩ := Compiler.operation_eq_ok_iff.mp ok
      refine .inr ⟨result, listed, ?_⟩
      rw [leaves, compiles.parameters, List.map_map]
      exact List.mem_append_left _ (List.mem_map_of_mem inOperation)
    · obtain ⟨result, listed, ok⟩ := exists_of_mapM ofOperations inDocument
      obtain ⟨root, s, compiles, leaves⟩ := Compiler.operation_eq_ok_iff.mp ok
      cases isRoot.symm.trans compiles.starts
      refine .inr ⟨result, listed, ?_⟩
      rw [leaves]
      exact List.mem_append_right _ (compiles.run.mem_leaves_iff.mpr leaf)
    · obtain ⟨result, listed, ok⟩ := exists_of_mapM ofFragments inDocument
      obtain ⟨type, s, compiles, leaves⟩ := Compiler.fragment_eq_ok_iff.mp ok
      cases found.symm.trans compiles.found
      refine .inl ⟨result, listed, ?_⟩
      rw [leaves]
      exact compiles.run.mem_leaves_iff.mpr leaf

end Document

section Compiled

variable {schema : Schema} {document : Document} {options : Options} {compiled : Compiled}

theorem Compiled.mem_typesUsed_of_has (done : document.compile schema options = .ok compiled)
    {field : ResponseField} (has : compiled.Has field) {type : TypeDefinition}
    (found : schema.type? field.type.baseName = some type) (declarable : type.Declarable) :
    field.type.baseName ∈ compiled.typesUsed := by
  obtain ⟨_, same, _⟩ := document.exists_leaves done
  have covered : compiled.ProvidesFor field := by
    rcases has with ⟨operation, member, within⟩ | ⟨fragment, member, within⟩
    · exact ResponseField.Everywhere.of_within (providesFor_operation done member) within
    · exact providesFor_fragment done member field within
  rw [← same] at found
  rcases covered with hasFields | provides
  · rw [found, Option.any_some] at hasFields
    cases declarable <;> cases hasFields
  · exact (provides type found).2 (TypeDefinition.isDeclared_iff.mpr declarable)

theorem Compiled.mem_typesUsed_of_parameter (done : document.compile schema options = .ok compiled)
    {operation : CompiledOperation} (member : operation ∈ compiled.operations) {v : Variable}
    (listed : v ∈ operation.parameters) {type : TypeDefinition} (found : schema.type? v.type.baseName = some type)
    (declarable : type.Declarable) : v.type.baseName ∈ compiled.typesUsed := by
  obtain ⟨leaves, _, used, ofOperations, _⟩ := document.exists_leaves done
  obtain ⟨_, _, _, _, _, kept⟩ := ofOperations operation member
  have named : v.type.baseName ∈ leaves := kept (List.mem_append_left _ (List.mem_map_of_mem listed))
  rw [used]
  exact Schema.mem_typesUsed_iff.mpr ⟨⟨type, found, declarable⟩, _, named, .refl⟩

end Compiled

-- `query Q($by: [Filter!]) { find(by: $by) count }`, where the input objects `Filter` and
-- `Range` have each other, and `Range` has a `Date`.
namespace Catalog

def find : FieldDefinition :=
  ⟨"find", none, [⟨"by", none, .list (.nonNull (.named "Filter")), false⟩], .named "Genre"⟩

def root : TypeDefinition := ⟨"Query", none, .object [] [find, ⟨"count", none, [], .named "Int"⟩]⟩

def schema : Schema :=
  ⟨Schema.definitionsOf [.type root, .type ⟨"Genre", none, .enum []⟩, .type ⟨"Date", none, .scalar⟩,
    .type ⟨"Unused", none, .enum []⟩, .type ⟨"Filter", none, .input [⟨"range", none, .named "Range", false⟩]⟩,
    .type ⟨"Range", none, .input [⟨"without", none, .named "Filter", false⟩, ⟨"at", none, .named "Date", false⟩]⟩],
    "Query", none, none⟩

def selections : List Selection :=
  [.field ⟨.start, none, "find", [⟨"by", .var "by"⟩], []⟩ default [],
    .field ⟨.start, none, "count", [], []⟩ default []]

def parameter : VariableDefinition := ⟨.start, "by", .list (.nonNull (.named "Filter")), none⟩

def query : Operation := ⟨.start, some ⟨.query, some "Q", [parameter], []⟩, ⟨default, selections⟩⟩

theorem run : ∃ s, ((Document.ofOperation query).compiler schema true).Run [] root false selections {} s ∧
    s.branches = [] ∧ s.leaves = ["Genre", "Int"] :=
  ⟨_, Compiler.collectAll_eq_ok_iff.mp rfl, rfl, rfl⟩

theorem inputEdge {outer inner : String} (edge : inner ∈ schema.inputGraph.next outer) :
    schema.InputEdge outer inner :=
  Schema.mem_next_inputGraph.mp edge

theorem names_query {name : String} (named : (Document.ofOperation query).NamesType schema true name) :
    name ∈ ["Filter", "Genre", "Int"] := by
  cases named with
  | parameter member listed =>
    cases List.mem_singleton.mp member
    cases List.mem_singleton.mp listed
    exact List.mem_cons_self
  | field starts leaf =>
    rcases starts with ⟨operation, member, isRoot, rfl⟩ | ⟨_, member, _⟩
    · cases List.mem_singleton.mp member
      cases isRoot
      obtain ⟨s, run, _, leaves⟩ := Catalog.run
      have kept : name ∈ s.leaves := run.mem_leaves_iff.mpr leaf
      rw [leaves] at kept
      exact List.mem_cons_of_mem _ kept
    · cases member

theorem reached_query {start name : String} (named : (Document.ofOperation query).NamesType schema true start)
    (way : Relation.ReflTransGen schema.InputEdge start name) :
    name ∈ ["Filter", "Genre", "Int", "Range", "Date"] := by
  have closed : ∀ outer ∈ ["Filter", "Genre", "Int", "Range", "Date"],
      ∀ inner ∈ schema.inputGraph.next outer, inner ∈ ["Filter", "Genre", "Int", "Range", "Date"] := by decide
  induction way with
  | refl => exact List.mem_append_left _ (names_query named)
  | tail _ edge ih => exact closed _ ih _ (Schema.mem_next_inputGraph.mpr edge)

theorem exists_compiled : ∃ compiled, (Document.ofOperation query).compile schema {} = .ok compiled := by
  have named : query.name? = some "Q" := rfl
  have isRoot : schema.root query.kind = .ok root := rfl
  obtain ⟨s, run, noBranches, _⟩ := Catalog.run
  have done (options : Options) (merges : options.mergeSpreads = true) :
      ∃ compiled, (Document.ofOperation query).compile schema options = .ok compiled := by
    rw [← merges] at run
    obtain ⟨compiled, _, done, _⟩ := Document.compile_ofOperation named isRoot run noBranches rfl
    exact ⟨compiled, done⟩
  exact done {} rfl

end Catalog

/-- The types used by a document are those that have to be declared and that a way through fields of
    input objects leads to, from the type of a variable or of a field without subfields. So the types of
    all compiled fields and variables are among them, if they have to be declared. -/
theorem typesUsed_exact {schema : Schema} {document : Document} {options : Options} {compiled : Compiled}
    (done : document.compile schema options = .ok compiled) :
    (∀ name, name ∈ compiled.typesUsed ↔
      (∃ type, schema.type? name = some type ∧ type.Declarable) ∧
        ∃ start, document.NamesType schema options.mergeSpreads start ∧
          Relation.ReflTransGen schema.InputEdge start name) ∧
    (∀ field, compiled.Has field → ∀ type, schema.type? field.type.baseName = some type → type.Declarable →
      field.type.baseName ∈ compiled.typesUsed) ∧
    ∀ operation ∈ compiled.operations, ∀ v ∈ operation.parameters, ∀ type,
      schema.type? v.type.baseName = some type → type.Declarable → v.type.baseName ∈ compiled.typesUsed := by
  refine ⟨fun name => ?_, ?_, ?_⟩
  · obtain ⟨names, used, named⟩ := document.exists_namedTypes done
    rw [used, Schema.mem_typesUsed_iff]
    simp only [named]
  · intro field has type found declarable
    exact Compiled.mem_typesUsed_of_has done has found declarable
  · intro operation member v listed type found declarable
    exact Compiled.mem_typesUsed_of_parameter done member listed found declarable

/-- `Date` is reached from the variable through two input objects, `Genre` is the type of a field, `Unused`
    is not reached, and `Int` is built in. -/
theorem typesUsed_exact_catalog :
    ∃ compiled, (Document.ofOperation Catalog.query).compile Catalog.schema {} = .ok compiled ∧
      "Date" ∈ compiled.typesUsed ∧ "Genre" ∈ compiled.typesUsed ∧ "Unused" ∉ compiled.typesUsed ∧
      "Int" ∉ compiled.typesUsed := by
  obtain ⟨compiled, done⟩ := Catalog.exists_compiled
  obtain ⟨used, _, _⟩ := typesUsed_exact done
  have way : Relation.ReflTransGen Catalog.schema.InputEdge "Filter" "Date" :=
    .tail (.single (Catalog.inputEdge (by decide : "Range" ∈ _))) (Catalog.inputEdge (by decide))
  have variableType : (Document.ofOperation Catalog.query).NamesType Catalog.schema true
      Catalog.parameter.type.baseName := .parameter List.mem_cons_self List.mem_cons_self
  have fieldType : (Document.ofOperation Catalog.query).NamesType Catalog.schema true "Genre" := by
    obtain ⟨s, run, _, leaves⟩ := Catalog.run
    refine .field (.inl ⟨Catalog.query, List.mem_cons_self, rfl, rfl⟩) (run.mem_leaves_iff.mp ?_)
    rw [leaves]
    exact List.mem_cons_self
  refine ⟨compiled, done, ?_, ?_, ?_, ?_⟩
  · exact (used "Date").mpr ⟨⟨_, rfl, .scalar (by decide)⟩, _, variableType, way⟩
  · exact (used "Genre").mpr ⟨⟨_, rfl, .enum⟩, "Genre", fieldType, .refl⟩
  · intro member
    obtain ⟨_, start, named, way⟩ := (used "Unused").mp member
    exact absurd (Catalog.reached_query named way) (by decide)
  · intro member
    obtain ⟨⟨type, found, declarable⟩, _⟩ := (used "Int").mp member
    cases found
    cases declarable with
    | scalar custom => exact custom (by decide)

end QueryTypes
