import QueryTypes.Proofs.Everywhere
import QueryTypes.Proofs.Reaching

namespace QueryTypes

open ResponseField

/-- No list of the field, and no list of one of its cases, has a key twice. -/
structure ResponseField.Indexed (field : ResponseField) : Prop where
  keys : (ResponseField.keys field.fields).Nodup
  spreads : field.spreads.Nodup
  conditions : (field.cases.map TypeCase.condition).Nodup
  ofCases : ∀ typeCase ∈ field.cases, (ResponseField.keys typeCase.fields).Nodup ∧ typeCase.spreads.Nodup

theorem ResponseField.WellKeyed.indexed {field : ResponseField} (kind : field.WellKeyed) : field.Indexed := by
  obtain ⟨fields, spreads, cases⟩ := wellKeyed_iff.mp kind
  refine ⟨fields.keys, spreads, cases.conditions, ?_⟩
  intro typeCase member
  exact ⟨(cases.each typeCase member).fields.keys, (cases.each typeCase member).spreads⟩

theorem Schema.nodup_typesUsed (schema : Schema) (names : List String) : (schema.typesUsed names).Nodup :=
  (Graph.nodup_reach _ _).filter _

/-- In whatever is compiled, the response names of each operation are distinct, fields at every depth
    of operations and fragments have only lists without a repeated key, and no used type is repeated. -/
theorem Compiled.indexed_everywhere {schema : Schema} {options : Options} {document : Document}
    {compiled : Compiled} (done : document.compile schema options = .ok compiled) :
    (∀ operation ∈ compiled.operations, (keys operation.fields).Nodup) ∧
    (∀ field, compiled.Has field → field.Indexed) ∧
    compiled.typesUsed.Nodup := by
  refine ⟨?_, ?_, ?_⟩
  · intro operation member
    exact (wellKeyed_operation done member).keys
  · intro field has
    exact (has.wellKeyed done).indexed
  · obtain ⟨leaves, _, reached, _⟩ := document.exists_leaves done
    rw [reached]
    exact schema.nodup_typesUsed leaves

/-- `n { x ... on B { y } } n { x ... on B { y } }` has one field `n`, with one `x` and one case. -/
theorem Compiled.indexed_everywhere_repeated :
    ∃ compiled, (Document.ofQuery Overlap.repeated).compile Overlap.schema {} = .ok compiled ∧
      (∃ operation ∈ compiled.operations, operation.fields = [Overlap.repeatedField]) ∧
      Overlap.repeatedField.Indexed ∧ compiled.typesUsed.Nodup := by
  obtain ⟨compiled, operation, done, member, fields⟩ :=
    Document.compile_ofQuery rfl Overlap.repeated_run rfl rfl
  obtain ⟨_, everywhere, types⟩ := indexed_everywhere done
  refine ⟨compiled, done, ⟨operation, member, fields⟩, everywhere _ (.inl ⟨operation, member, .here ?_⟩), types⟩
  rw [fields]
  exact List.mem_singleton_self _

end QueryTypes
