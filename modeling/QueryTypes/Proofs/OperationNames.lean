import QueryTypes.Proofs.DefaultOperations
import QueryTypes.Proofs.Discriminators

namespace QueryTypes

theorem OperationKind.suffix_inj {name other : String} {kind otherKind : OperationKind}
    (same : name ++ kind.suffix = other ++ otherKind.suffix) : name = other ∧ kind = otherKind := by
  have letters := congrArg (fun text => text.toList.reverse) same
  simp only [String.toList_append, List.reverse_append] at letters
  cases kind <;> cases otherKind <;> simp [suffix] at letters <;> simp [← String.toList_inj, letters]

theorem OperationKind.append_suffix_ne (name : String) (kind : OperationKind) : name ++ kind.suffix ≠ name := by
  intro same
  have lengths := congrArg String.length same
  rw [String.length_append] at lengths
  have positive : 0 < kind.suffix.length := by cases kind <;> decide
  omega

namespace Schema

/-- The second operation has the longer name of its field, and the first one has the same name, as its own
    field has it. -/
structure Clashes (first second : OperationKind × String × FieldDefinition) : Prop where
  kept : first.2.1 = first.2.2.name
  renamed : second.2.1 ≠ second.2.2.name
  taken : first.2.2.name = second.2.2.name ++ second.1.suffix

section Naming

variable {used : List String} {fields : List (OperationKind × FieldDefinition)}
  {entry : OperationKind × String × FieldDefinition}

theorem fresh_of_kept (member : entry ∈ rootOperations.name used fields) (kept : entry.2.1 = entry.2.2.name) :
    entry.2.1 ∉ used := by
  induction fields generalizing used with
  | nil => cases member
  | cons field rest ih =>
    obtain ⟨kind, field⟩ := field
    rw [rootOperations.name] at member
    by_cases isUsed : field.name ∈ used
    · rw [if_pos isUsed] at member
      rcases List.mem_cons.mp member with rfl | member
      · exact absurd kept (OperationKind.append_suffix_ne field.name kind)
      · exact fun earlier => ih member (List.mem_cons_of_mem _ earlier)
    · rw [if_neg isUsed] at member
      rcases List.mem_cons.mp member with rfl | member
      · exact isUsed
      · exact fun earlier => ih member (List.mem_cons_of_mem _ earlier)

theorem mem_of_mem_rootOperations_name (member : entry ∈ rootOperations.name used fields) :
    (entry.1, entry.2.2) ∈ fields := by
  rw [← map_rootOperations_name used fields]
  exact List.mem_map_of_mem (f := fun entry => (entry.1, entry.2.2)) member

/-- Two operations have one name exactly if they clash. -/
theorem pairwise_rootOperations_name
    (apart : fields.Pairwise fun first second => first.1 = second.1 → first.2.name ≠ second.2.name) :
    (rootOperations.name used fields).Pairwise fun first second =>
      first.2.1 = second.2.1 ↔ Clashes first second := by
  induction fields generalizing used with
  | nil => exact .nil
  | cons field rest ih =>
    obtain ⟨ahead, apart⟩ := List.pairwise_cons.mp apart
    -- the name of the first operation is used when the others are named
    have step (first : OperationKind × String × FieldDefinition) (ofField : (first.1, first.2.2) = field)
        (named : first.2.1 = first.2.2.name ∨ first.2.1 = first.2.2.name ++ first.1.suffix) :
        (first :: rootOperations.name (first.2.1 :: used) rest).Pairwise fun first second =>
          first.2.1 = second.2.1 ↔ Clashes first second := by
      refine List.pairwise_cons.mpr ⟨?_, ih apart⟩
      intro second member
      have other := ahead _ (mem_of_mem_rootOperations_name member)
      subst ofField
      constructor
      · intro same
        have renamed : second.2.1 ≠ second.2.2.name := by
          intro kept
          exact fresh_of_kept member kept (by rw [same]; exact List.mem_cons_self)
        have longer := (name_of_mem_rootOperations_name member).resolve_left renamed
        rcases named with kept | both
        · exact ⟨kept, renamed, by rw [← kept, same, longer]⟩
        · rw [both, longer] at same
          obtain ⟨names, kinds⟩ := OperationKind.suffix_inj same
          exact absurd names (other kinds)
      · intro clash
        have longer := (name_of_mem_rootOperations_name member).resolve_left clash.renamed
        rw [clash.kept, clash.taken, longer]
    obtain ⟨kind, field⟩ := field
    rw [rootOperations.name]
    by_cases isUsed : field.name ∈ used
    · rw [if_pos isUsed]
      exact step (kind, field.name ++ kind.suffix, field) rfl (.inr rfl)
    · rw [if_neg isUsed]
      exact step (kind, field.name, field) rfl (.inl rfl)

/-- Queries come first, so their names are never taken. -/
theorem kept_of_query (fresh : ∀ field ∈ fields, field.1 = .query → field.2.name ∉ used)
    (first : fields.Pairwise fun earlier later =>
      later.1 = .query → earlier.1 = .query ∧ earlier.2.name ≠ later.2.name)
    (member : entry ∈ rootOperations.name used fields) (query : entry.1 = .query) :
    entry.2.1 = entry.2.2.name := by
  induction fields generalizing used with
  | nil => cases member
  | cons field rest ih =>
    obtain ⟨kind, field⟩ := field
    rw [List.forall_mem_cons] at fresh
    rw [List.pairwise_cons] at first
    rw [rootOperations.name] at member
    by_cases isUsed : field.name ∈ used
    · rw [if_pos isUsed] at member
      have other : kind ≠ .query := fun same => fresh.1 same isUsed
      rcases List.mem_cons.mp member with rfl | member
      · exact absurd query other
      · exact absurd (first.1 _ (mem_of_mem_rootOperations_name member) query).1 other
    · rw [if_neg isUsed] at member
      rcases List.mem_cons.mp member with rfl | member
      · rfl
      · refine ih ?_ first.2 member
        intro later inRest isQuery
        have differ := (first.1 later inRest isQuery).2
        rw [List.mem_cons, not_or]
        exact ⟨differ.symm, fresh.2 later inRest isQuery⟩

end Naming

variable {schema : Schema}

def RootNamesDistinct (schema : Schema) : Prop :=
  ∀ kind root, schema.root kind = .ok root → (root.fields.map FieldDefinition.name).Nodup

theorem pairwise_rootFields (distinct : schema.RootNamesDistinct) :
    schema.rootFields.Pairwise fun first second =>
      (first.1 = second.1 → first.2.name ≠ second.2.name) ∧
        (second.1 = .query → first.1 = .query ∧ first.2.name ≠ second.2.name) := by
  unfold rootFields
  rw [List.pairwise_flatMap]
  constructor
  · intro kind _
    cases starts : schema.root kind with
    | error fault => exact .nil
    | ok root =>
      have names := List.pairwise_map.mp (distinct kind root starts)
      rw [List.pairwise_map]
      exact names.imp fun differ => ⟨fun _ => differ, fun query => ⟨query, differ⟩⟩
  · have order : [OperationKind.query, .mutation, .subscription].Pairwise fun first second =>
        first ≠ second ∧ second ≠ .query := by decide
    refine order.imp ?_
    intro kind other differ first inFirst second inSecond
    split at inFirst
    · split at inSecond
      · obtain ⟨_, _, rfl⟩ := List.mem_map.mp inFirst
        obtain ⟨_, _, rfl⟩ := List.mem_map.mp inSecond
        exact ⟨fun same => absurd same differ.1, fun query => absurd query differ.2⟩
      · cases inSecond
    · cases inFirst

theorem pairwise_rootOperations (distinct : schema.RootNamesDistinct) :
    schema.rootOperations.Pairwise fun first second => first.2.1 = second.2.1 ↔ Clashes first second :=
  pairwise_rootOperations_name ((pairwise_rootFields distinct).imp And.left)

theorem nodup_rootOperations_iff (distinct : schema.RootNamesDistinct) :
    (schema.rootOperations.map (·.2.1)).Nodup ↔
      schema.rootOperations.Pairwise fun first second => ¬Clashes first second := by
  have clashes := pairwise_rootOperations distinct
  unfold List.Nodup
  rw [List.pairwise_map]
  constructor
  · intro differ
    exact (clashes.and differ).imp fun both clash => both.2 (both.1.mpr clash)
  · intro clear
    exact (clashes.and clear).imp fun both same => both.2 (both.1.mp same)

/-- No field has the longer name of another one. -/
def LongerNamesFree (schema : Schema) : Prop :=
  ∀ field ∈ schema.rootFields, ∀ other ∈ schema.rootFields, other.1 ≠ .query →
    field.2.name ≠ other.2.name ++ other.1.suffix

theorem not_clashes_of_free (distinct : schema.RootNamesDistinct) (free : schema.LongerNamesFree) :
    schema.rootOperations.Pairwise fun first second => ¬Clashes first second := by
  have listed {entry : OperationKind × String × FieldDefinition} (member : entry ∈ schema.rootOperations) :
      (entry.1, entry.2.2) ∈ schema.rootFields := mem_of_mem_rootOperations_name member
  refine List.pairwise_iff_forall_sublist.mpr ?_
  intro first second inOrder clash
  have inFirst : first ∈ schema.rootOperations := inOrder.subset (by simp)
  have inSecond : second ∈ schema.rootOperations := inOrder.subset (by simp)
  refine free _ (listed inFirst) _ (listed inSecond) ?_ clash.taken
  intro query
  refine clash.renamed (kept_of_query ?_ ((pairwise_rootFields distinct).imp And.right) inSecond query)
  exact fun _ _ _ => List.not_mem_nil

theorem names_of_defaultDocument (readable : schema.Readable) {document : Document}
    (made : schema.defaultDocument = .ok document) :
    document.operations.map Operation.name? = schema.rootOperations.map fun entry => some entry.2.1 := by
  rw [defaultDocument_eq] at made
  obtain ⟨documents, done, made⟩ := bind_eq_ok.mp made
  obtain ⟨operations, joined, names, _⟩ := exists_operations_of_mapM readable (List.Subset.refl _) done
  rw [Document.eq_decorate_of_withDiscriminators made, joined, Document.operations_decorate,
    Document.operations_ofOperations, List.map_map]
  exact names

end Schema

def Diagnostic.isRepeatedName (fault : Diagnostic) : Bool := fault.complaint matches .duplicateOperation _

namespace Validation

variable {v : Validation}

theorem composite_notRepeated {name : String} {position : Position} {fault : Diagnostic}
    (failed : v.composite name position = .error fault) : fault.isRepeatedName = false := by
  unfold composite at failed
  split at failed
  · cases failed
    rfl
  · split at failed
    · cases failed
    · cases failed
      rfl

theorem spreadFaults_notRepeated (parent condition : TypeDefinition) {fault : Diagnostic}
    (other : fault.isRepeatedName = false) :
    (v.spreadFaults parent condition fault).any Diagnostic.isRepeatedName = false := by
  unfold spreadFaults
  split <;> simp [other]

mutual
theorem selectionFaults_notRepeated (parent : TypeDefinition) :
    (selection : Selection) → (v.selectionFaults parent selection).any Diagnostic.isRepeatedName = false
  | .field head span selections => by
    have names : (v.nameFaults head).any Diagnostic.isRepeatedName = false := by
      unfold nameFaults
      split <;> split <;> rfl
    rw [selectionFaults, List.any_append, names, Bool.false_or]
    cases v.schema.field? parent head.name with
    | none => rfl
    | some definition =>
      dsimp only
      cases v.schema.type? definition.type.baseName with
      | none => rfl
      | some type =>
        dsimp only
        split
        · rfl
        · split
          · rfl
          · split
            · exact selectionsFaults_notRepeated type selections
            · rfl
  | .inline head span selections => by
    rw [selectionFaults]
    cases head.condition with
    | none =>
      dsimp only
      rw [List.any_append, spreadFaults_notRepeated _ _ rfl, selectionsFaults_notRepeated parent selections]
      rfl
    | some name =>
      dsimp only
      cases resolved : v.composite name head.position with
      | error fault => simp [composite_notRepeated resolved]
      | ok type =>
        dsimp only
        rw [List.any_append, spreadFaults_notRepeated _ _ rfl, selectionsFaults_notRepeated type selections]
        rfl
  | .spread spread => by
    rw [selectionFaults]
    unfold namedSpreadFaults
    split
    · rfl
    · split
      · rfl
      · exact spreadFaults_notRepeated _ _ rfl

theorem selectionsFaults_notRepeated (parent : TypeDefinition) :
    (selections : List Selection) → (v.selectionsFaults parent selections).any Diagnostic.isRepeatedName = false
  | [] => rfl
  | selection :: rest => by
    rw [selectionsFaults, List.any_append, selectionFaults_notRepeated parent selection,
      selectionsFaults_notRepeated parent rest]
    rfl
end

theorem any_operationFaults (earlier : List String) (operation : Operation) :
    (v.operationFaults earlier operation).any Diagnostic.isRepeatedName =
      operation.name?.any earlier.contains := by
  have ofVariables : (operation.parameters.flatMap v.variableFaults).any Diagnostic.isRepeatedName = false := by
    rw [List.any_flatMap, List.any_eq_false]
    intro definition _
    unfold variableFaults
    split <;> simp [Diagnostic.isRepeatedName]
  have ofSelections (root : TypeDefinition) :=
    selectionsFaults_notRepeated (v := v) root operation.selectionSet.items
  unfold operationFaults
  cases operation.name? with
  | none => cases v.schema.root operation.kind <;> simp [ofVariables, ofSelections, Diagnostic.isRepeatedName]
  | some name =>
    by_cases repeated : name ∈ earlier
    · simp [repeated, Diagnostic.isRepeatedName]
    · cases v.schema.root operation.kind <;>
        simp [ofVariables, ofSelections, repeated, Diagnostic.isRepeatedName]

theorem fragmentFaults_notRepeated (earlier : List String) (fragment : Fragment) :
    (v.fragmentFaults earlier fragment).any Diagnostic.isRepeatedName = false := by
  unfold fragmentFaults
  cases resolved : v.composite fragment.condition fragment.position with
  | error fault =>
    have other := composite_notRepeated resolved
    split
    · simpa using ⟨rfl, other⟩
    · simpa using other
  | ok parent =>
    have others := selectionsFaults_notRepeated (v := v) parent fragment.selectionSet.items
    split
    · exact others
    · exact others

/-- A repeated name is reported exactly if some name is repeated. -/
theorem any_definitionsFaults (operations fragments : List String) (definitions : List Definition) :
    (v.definitionsFaults operations fragments definitions).any Diagnostic.isRepeatedName = false ↔
      ((Document.operations ⟨definitions⟩).filterMap Operation.name?).Nodup ∧
        ∀ name ∈ (Document.operations ⟨definitions⟩).filterMap Operation.name?, name ∉ operations := by
  induction definitions generalizing operations fragments with
  | nil => simp [definitionsFaults, Document.operations]
  | cons definition rest ih =>
    cases definition with
    | operation first =>
      have listed : Document.operations ⟨.operation first :: rest⟩ = first :: Document.operations ⟨rest⟩ := rfl
      rw [definitionsFaults, List.any_append, any_operationFaults, Bool.or_eq_false_iff, ih, listed]
      cases named : first.name? with
      | none => simp [named]
      | some name =>
        simp only [List.filterMap_cons, named, List.nodup_cons, Option.toList_some,
          List.singleton_append, List.mem_cons, not_or, Option.any_some]
        grind
    | fragment first =>
      have listed : Document.operations ⟨.fragment first :: rest⟩ = Document.operations ⟨rest⟩ := rfl
      rw [definitionsFaults, List.any_append, fragmentFaults_notRepeated, Bool.false_or, ih, listed]

end Validation

namespace Taken

def text : String := "type Query\x7ba:Int aMutation:Int\x7dtype Mutation\x7ba:Int\x7d"

def schema : Schema :=
  ⟨Schema.definitionsOf [
      .type ⟨"Query", none, .object [] [⟨"a", none, [], .named "Int"⟩, ⟨"aMutation", none, [], .named "Int"⟩]⟩,
      .type ⟨"Mutation", none, .object [] [⟨"a", none, [], .named "Int"⟩]⟩],
    "Query", some "Mutation", none⟩

theorem read : Schema.read none text = .ok schema := by decide +kernel

theorem distinct : schema.RootNamesDistinct := by
  intro kind root starts
  cases kind <;> cases starts <;> decide

theorem exists_document : ∃ document, schema.defaultDocument = .ok document := by
  have made : schema.defaultDocument.toOption.isSome = true := by decide +kernel
  cases outcome : schema.defaultDocument with
  | error fault => simp [outcome, Except.toOption] at made
  | ok document => exact ⟨document, rfl⟩

end Taken

/-- The default operations are named in the order of the root fields. Their names are distinct unless an
    operation gets a longer name that an earlier one has, and then the document has a fault. -/
theorem default_operation_names {path : Option String} {text : String} {schema : Schema}
    (read : Schema.read path text = .ok schema) (distinct : schema.RootNamesDistinct) {document : Document}
    (made : schema.defaultDocument = .ok document) :
    document.operations.map Operation.name? = schema.rootOperations.map (fun entry => some entry.2.1) ∧
      schema.rootOperations.map (fun entry => (entry.1, entry.2.2)) = schema.rootFields ∧
      ((document.operations.map Operation.name?).Nodup ↔
        schema.rootOperations.Pairwise fun first second => ¬Schema.Clashes first second) ∧
      (∀ addsTypename, (document.operations.map Operation.name?).Nodup ↔
        (document.faults schema addsTypename).any Diagnostic.isRepeatedName = false) ∧
      (schema.LongerNamesFree → (document.operations.map Operation.name?).Nodup) := by
  have names := Schema.names_of_defaultDocument (Schema.readable_of_read read) made
  have apart : (document.operations.map Operation.name?).Nodup ↔ (schema.rootOperations.map (·.2.1)).Nodup := by
    have outer : (schema.rootOperations.map fun entry => some entry.2.1) =
        (schema.rootOperations.map (·.2.1)).map some := by
      rw [List.map_map]
      rfl
    rw [names, outer]
    exact List.nodup_map_iff fun _ _ => Option.some.inj
  have clashes := Schema.nodup_rootOperations_iff distinct
  refine ⟨names, schema.map_rootOperations, apart.trans clashes, ?_, ?_⟩
  · intro addsTypename
    have listed : document.operations.filterMap Operation.name? = schema.rootOperations.map (·.2.1) := by
      have shown := congrArg (List.filterMap id) names
      simpa [List.filterMap_map, Function.comp_def] using shown
    unfold Document.faults
    rw [Validation.any_definitionsFaults, apart, listed]
    simp
  · intro free
    exact apart.mpr (clashes.mpr (Schema.not_clashes_of_free distinct free))

/-- The mutation `a` gets the name of the query `aMutation`. -/
theorem default_operation_names_taken :
    ∃ document, Schema.read none Taken.text = .ok Taken.schema ∧ Taken.schema.RootNamesDistinct ∧
      Taken.schema.defaultDocument = .ok document ∧
      document.operations.map Operation.name? = [some "a", some "aMutation", some "aMutation"] ∧
      (document.faults Taken.schema false).any Diagnostic.isRepeatedName = true := by
  obtain ⟨document, made⟩ := Taken.exists_document
  obtain ⟨names, _, _, reported, _⟩ := default_operation_names Taken.read Taken.distinct made
  have listed : document.operations.map Operation.name? = [some "a", some "aMutation", some "aMutation"] := by
    rw [names]
    decide
  refine ⟨document, Taken.read, Taken.distinct, made, listed, ?_⟩
  have repeated : ¬(document.operations.map Operation.name?).Nodup := by
    rw [listed]
    decide
  rw [reported false] at repeated
  simpa using repeated

end QueryTypes
