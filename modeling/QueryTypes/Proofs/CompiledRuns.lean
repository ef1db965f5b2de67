import QueryTypes.Proofs.Provenance
import QueryTypes.Shape.PropertySet

namespace QueryTypes

namespace Compiler

variable {c : Compiler}

/-- What an operation is compiled from: its selections, collected on the root type, and the texts of it
    and of the fragments that it needs. -/
structure Compiles (c : Compiler) (withId : Bool) (fragments : List CompiledFragment) (source : Operation)
    (root : TypeDefinition) (s : Collection) (operation : CompiledOperation) : Prop where
  name : source.name? = some operation.name
  kind : operation.kind = source.kind
  starts : c.schema.root source.kind = .ok root
  rootType : operation.rootType = root.name
  parameters : operation.parameters = source.parameters.map fun v => ⟨v.name, v.type⟩
  run : c.Run [] root false source.selectionSet.items {} s
  branches : s.branches = []
  fields : operation.fields = s.target.fields
  text : operation.source = (Definition.operation source).toText
  references : c.fragmentsReferenced source.selectionSet.items = .ok operation.fragmentsReferenced
  joins : joinSources fragments operation.source operation.fragmentsReferenced = .ok operation.sourceWithFragments
  id : operation.id = if withId then some (sha256 operation.sourceWithFragments) else none

structure CompilesFragment (c : Compiler) (source : Fragment) (type : TypeDefinition) (s : Collection)
    (fragment : CompiledFragment) : Prop where
  name : fragment.name = source.name
  condition : fragment.condition = source.condition
  possibleTypes : fragment.possibleTypes = c.schema.possibleTypes source.condition
  found : c.schema.type? source.condition = some type
  hasFields : type.isComposite = true
  run : c.Run [source.name] type false source.selectionSet.items {} s
  fields : fragment.fields = (c.finish type s).fields
  spreads : fragment.spreads = (c.finish type s).spreads
  cases : fragment.cases = (c.finish type s).cases
  text : fragment.source = (Definition.fragment source).toText

theorem operation_eq_ok_iff {withId : Bool} {fragments : List CompiledFragment} {source : Operation}
    {result : CompiledOperation × List String} :
    c.operation withId fragments source = .ok result ↔
      ∃ root s, c.Compiles withId fragments source root s result.1 ∧
        result.2 = result.1.parameters.map (·.type.baseName) ++ s.leaves := by
  constructor
  · intro compiled
    unfold Compiler.operation at compiled
    split at compiled
    · cases compiled
    · rename_i name named
      obtain ⟨root, starts, compiled⟩ := bind_eq_ok.mp compiled
      obtain ⟨s, collected, compiled⟩ := bind_eq_ok.mp compiled
      split at compiled
      · cases compiled
      · rename_i noBranches
        obtain ⟨referenced, references, compiled⟩ := bind_eq_ok.mp compiled
        obtain ⟨whole, joins, compiled⟩ := bind_eq_ok.mp compiled
        cases compiled
        have run := collectAll_eq_ok_iff.mp collected
        exact ⟨root, s, ⟨named, rfl, starts, rfl, rfl, run, noBranches, rfl, rfl, references, joins, rfl⟩, rfl⟩
  · rintro ⟨root, s, compiles, leaves⟩
    have collected : c.collectFrom [] root source.selectionSet.items = .ok s :=
      collectAll_eq_ok_iff.mpr compiles.run
    unfold Compiler.operation
    simp only [compiles.name, compiles.starts, collected, compiles.branches, compiles.references, ← compiles.text,
      compiles.joins, ok_bind]
    rw [← compiles.parameters, ← compiles.kind, ← compiles.rootType, ← compiles.fields, ← compiles.id, ← leaves]
    rfl

theorem fragment_eq_ok_iff {source : Fragment} {result : CompiledFragment × List String} :
    c.fragment source = .ok result ↔
      ∃ type s, c.CompilesFragment source type s result.1 ∧ result.2 = s.leaves := by
  constructor
  · intro compiled
    obtain ⟨type, resolved, compiled⟩ := bind_eq_ok.mp compiled
    obtain ⟨shape, shaped, compiled⟩ := bind_eq_ok.mp compiled
    obtain ⟨s, run, rfl⟩ := shape_eq_ok_iff.mp shaped
    obtain ⟨known, hasFields⟩ := composite_eq_ok.mp resolved
    cases compiled
    exact ⟨type, s, ⟨rfl, rfl, rfl, known, hasFields, run, rfl, rfl, rfl, rfl⟩, rfl⟩
  · rintro ⟨type, s, compiles, leaves⟩
    unfold Compiler.fragment
    rw [composite_eq_ok.mpr ⟨compiles.found, compiles.hasFields⟩, ok_bind, shape_of_run compiles.run, ok_bind,
      ← compiles.text, ← compiles.possibleTypes, ← compiles.fields, ← compiles.spreads, ← compiles.cases,
      ← compiles.name, ← compiles.condition]
    change Except.ok (result.1, s.leaves) = _
    rw [← leaves]

/-- An operation that spreads nothing is compiled if its selections are collected without branches. -/
theorem operation_of_run {operation : Operation} {name : String} {root : TypeDefinition}
    {s : Collection} (named : operation.name? = some name)
    (starts : c.schema.root operation.kind = .ok root)
    (run : c.Run [] root false operation.selectionSet.items {} s) (noBranches : s.branches = [])
    (noSpreads : Selection.spreadNamesAll operation.selectionSet.items = []) (withId : Bool)
    (fragments : List CompiledFragment) :
    ∃ result, c.operation withId fragments operation = .ok result ∧
      result.1.fields = s.target.fields := by
  have references : c.fragmentsReferenced operation.selectionSet.items = .ok [] := by
    simp [fragmentsReferenced, noSpreads, Graph.reach, Graph.explore]
  let text := (Definition.operation operation).toText
  let made : CompiledOperation :=
    { name, kind := operation.kind, parameters := operation.parameters.map fun v => ⟨v.name, v.type⟩
      rootType := root.name, fields := s.target.fields, source := text, fragmentsReferenced := []
      sourceWithFragments := text, id := if withId then some (sha256 text) else none }
  refine ⟨(made, made.parameters.map (·.type.baseName) ++ s.leaves), operation_eq_ok_iff.mpr ⟨root, s, ?_, rfl⟩, rfl⟩
  exact ⟨named, rfl, starts, rfl, rfl, run, noBranches, rfl, rfl, references, rfl, rfl⟩

end Compiler

namespace Document

def ofOperation (source : Operation) : Document := ⟨[.operation source]⟩

def ofQuery (selections : List Selection) : Document :=
  ⟨[.operation ⟨.start, some ⟨.query, some "Q", [], []⟩, ⟨default, selections⟩⟩]⟩

/-- The type and the selections of an operation or of a fragment. -/
def Starts (schema : Schema) (document : Document) (type : TypeDefinition)
    (selections : List Selection) : Prop :=
  (∃ operation ∈ document.operations, schema.root operation.kind = .ok type ∧
    selections = operation.selectionSet.items) ∨
  ∃ fragment ∈ document.fragments, schema.type? fragment.condition = some type ∧
    type.isComposite = true ∧ selections = fragment.selectionSet.items

variable {schema : Schema} {options : Options} {document : Document} {compiled : Compiled}

theorem starts_ofQuery {selections start : List Selection} {type root : TypeDefinition}
    (isRoot : schema.root .query = .ok root) (starts : (ofQuery selections).Starts schema type start) :
    type = root ∧ start = selections := by
  rcases starts with ⟨operation, member, found, rfl⟩ | ⟨fragment, member, _⟩
  · cases List.mem_singleton.mp member
    exact ⟨Except.ok.inj (found.symm.trans isRoot), rfl⟩
  · cases member

/-- An operation that spreads nothing is compiled if its selections are collected without branches. -/
theorem compile_ofOperation {source : Operation} {name : String} {root : TypeDefinition} {s : Collection}
    (named : source.name? = some name) (isRoot : schema.root source.kind = .ok root)
    (run : ((ofOperation source).compiler schema options.mergeSpreads).Run [] root false source.selectionSet.items {} s)
    (noBranches : s.branches = []) (noSpreads : Selection.spreadNamesAll source.selectionSet.items = []) :
    ∃ compiled operation, (ofOperation source).compile schema options = .ok compiled ∧
      operation ∈ compiled.operations ∧ operation.fields = s.target.fields := by
  obtain ⟨result, done, fields⟩ :=
    Compiler.operation_of_run named isRoot run noBranches noSpreads options.operationIds []
  have operations : (ofOperation source).operations.mapM
      (((ofOperation source).compiler schema options.mergeSpreads).operation options.operationIds []) = .ok [result] := by
    change [source].mapM _ = _
    rw [List.mapM_cons, done]
    rfl
  refine ⟨⟨schema, [result.1], [], schema.typesUsed ([result].flatMap Prod.snd)⟩, result.1, ?_,
    List.mem_singleton_self _, fields⟩
  change (ofOperation source).operations.mapM
    (((ofOperation source).compiler schema options.mergeSpreads).operation options.operationIds []) >>= _ = _
  rw [operations]
  rfl

theorem compile_ofQuery {selections : List Selection} {root : TypeDefinition} {s : Collection}
    (isRoot : schema.root .query = .ok root)
    (run : ((ofQuery selections).compiler schema true).Run [] root false selections {} s)
    (noBranches : s.branches = []) (noSpreads : Selection.spreadNamesAll selections = []) :
    ∃ compiled operation, (ofQuery selections).compile schema {} = .ok compiled ∧
      operation ∈ compiled.operations ∧ operation.fields = s.target.fields := by
  let source : Operation := ⟨.start, some ⟨.query, some "Q", [], []⟩, ⟨default, selections⟩⟩
  have named : source.name? = some "Q" := rfl
  exact compile_ofOperation named isRoot run noBranches noSpreads

/-- All compiled operations and fragments come from the document, and the types used are reached from
    the types of their variables and leaves. -/
theorem exists_leaves (done : document.compile schema options = .ok compiled) :
    ∃ leaves, compiled.schema = schema ∧ compiled.typesUsed = schema.typesUsed leaves ∧
      (∀ operation ∈ compiled.operations, ∃ source ∈ document.operations, ∃ root s,
        (document.compiler schema options.mergeSpreads).Compiles options.operationIds compiled.fragments source root s operation ∧
        operation.parameters.map (·.type.baseName) ++ s.leaves ⊆ leaves) ∧
      ∀ fragment ∈ compiled.fragments, ∃ source ∈ document.fragments, ∃ type s,
        (document.compiler schema options.mergeSpreads).CompilesFragment source type s fragment ∧
        s.leaves ⊆ leaves := by
  obtain ⟨fragments, ofFragments, rest⟩ := bind_eq_ok.mp done
  obtain ⟨operations, ofOperations, rest⟩ := bind_eq_ok.mp rest
  cases rest
  refine ⟨_, rfl, rfl, ?_, ?_⟩
  · intro operation member
    obtain ⟨result, listed, rfl⟩ := List.mem_map.mp (mem_of_mem_distinctBy _ member)
    obtain ⟨source, inDocument, ok⟩ := exists_of_mem_mapM ofOperations listed
    obtain ⟨root, s, compiles, names⟩ := Compiler.operation_eq_ok_iff.mp ok
    refine ⟨source, inDocument, root, s, compiles, ?_⟩
    intro name inNames
    rw [← names] at inNames
    exact List.mem_append_right _ (List.mem_flatMap.mpr ⟨result, listed, inNames⟩)
  · intro fragment member
    obtain ⟨result, listed, rfl⟩ := List.mem_map.mp (mem_of_mem_distinctBy _ member)
    obtain ⟨source, inDocument, ok⟩ := exists_of_mem_mapM ofFragments listed
    obtain ⟨type, s, compiles, names⟩ := Compiler.fragment_eq_ok_iff.mp ok
    refine ⟨source, inDocument, type, s, compiles, ?_⟩
    intro name inNames
    rw [← names] at inNames
    exact List.mem_append_left _ (List.mem_flatMap.mpr ⟨result, listed, inNames⟩)

theorem sourced_of_fragment (done : document.compile schema options = .ok compiled)
    {fragment : CompiledFragment} (member : fragment ∈ compiled.fragments) :
    ∃ root start, document.Starts schema root start ∧
      (document.compiler schema options.mergeSpreads).Sourced root start fragment.toField := by
  obtain ⟨_, _, _, _, ofFragments⟩ := exists_leaves done
  obtain ⟨source, inDocument, type, s, compiles, _⟩ := ofFragments fragment member
  refine ⟨type, _, .inr ⟨source, inDocument, compiles.found, compiles.hasFields, rfl⟩, _, Compiler.meeting_only,
    ?_, ?_⟩
  · change Compiler.Blend _ _ fragment.fields fragment.cases
    rw [compiles.fields, compiles.cases]
    exact .source ⟨rfl, rfl⟩ compiles.run
  · intro other found _
    change schema.type? fragment.condition = some other at found
    rw [compiles.condition] at found
    cases found.symm.trans compiles.found
    exact ⟨_, rfl, rfl⟩

theorem sourced_of_operation (done : document.compile schema options = .ok compiled)
    {operation : CompiledOperation} (member : operation ∈ compiled.operations) :
    ∃ root start, document.Starts schema root start ∧ ∀ field ∈ operation.fields,
      (document.compiler schema options.mergeSpreads).Sourced root start field := by
  obtain ⟨_, _, _, ofOperations, _⟩ := exists_leaves done
  obtain ⟨source, inDocument, root, s, compiles, _⟩ := ofOperations operation member
  refine ⟨root, _, .inl ⟨source, inDocument, compiles.starts, rfl⟩, ?_⟩
  rw [compiles.fields]
  exact compiles.run.sourced

end Document

end QueryTypes
