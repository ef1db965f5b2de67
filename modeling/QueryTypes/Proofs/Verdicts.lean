import QueryTypes.Proofs.Coherence
import QueryTypes.Proofs.Discriminators
import QueryTypes.Proofs.Settled
import QueryTypes.Proofs.Validity

namespace QueryTypes

open Discriminator

namespace Validation

variable {v : Validation} {parent : TypeDefinition}

/-- Selections are only checked on types with fields and on root types. -/
def ChecksOn (v : Validation) (parent : TypeDefinition) : Prop :=
  parent.isComposite = true ∨ v.schema.isRoot parent.name = true

theorem selectionsFaults_eq_flatMap (parent : TypeDefinition) (selections : List Selection) :
    v.selectionsFaults parent selections = selections.flatMap (v.selectionFaults parent) := by
  induction selections with
  | nil => rfl
  | cons selection rest ih => rw [selectionsFaults, ih, List.flatMap_cons]

/-- A discriminator on a type with fields is no fault, unless none may be written. -/
theorem selectionFaults_discriminator (scalar : v.schema.IsBuiltIn "String")
    (writable : v.addsTypename = false) (hasFields : parent.isComposite = true) (position : Position) :
    v.selectionFaults parent (.discriminator position) = [] := by
  obtain ⟨type, known, simple⟩ := scalar.exists_simple
  have field : v.schema.field? parent typenameField = some .typenameMeta :=
    Schema.field?_typename hasFields
  have base : FieldDefinition.typenameMeta.type.baseName = "String" := rfl
  simp [Selection.discriminator, selectionFaults, nameFaults, writable, field, base, known, simple]

theorem perm_selectionsFaults_place (scalar : v.schema.IsBuiltIn "String")
    (writable : v.addsTypename = false) (visited : v.ChecksOn parent) (position : Position)
    (selections : List Selection) :
    (v.selectionsFaults parent (place v.schema (some parent) position selections)).Perm
      (v.selectionsFaults parent selections) := by
  unfold place
  split
  · exact .refl _
  · rename_i needed
    have hasFields : parent.isComposite = true := by
      rcases visited with hasFields | isRoot
      · exact hasFields
      · simp [isRoot] at needed
    rw [selectionsFaults_eq_flatMap, selectionsFaults_eq_flatMap]
    rcases hoist_perm position selections with reordered | added
    · exact reordered.flatMap_right _
    · rw [added, List.flatMap_cons, selectionFaults_discriminator scalar writable hasFields]
      exact .refl _

theorem isEmpty_place (schema : Schema) (type : Option TypeDefinition) (position : Position)
    (selections : List Selection) :
    (place schema type position (addBelowAll schema type selections)).isEmpty = selections.isEmpty := by
  cases selections with
  | nil => simp [addBelowAll, place]
  | cons selection rest =>
    unfold place hoist
    rw [addBelowAll]
    split
    · rfl
    · split <;> rfl

mutual
theorem perm_selectionFaults_addBelow (scalar : v.schema.IsBuiltIn "String")
    (writable : v.addsTypename = false) (parent : TypeDefinition) (visited : v.ChecksOn parent) :
    (selection : Selection) →
      (v.selectionFaults parent (addBelow v.schema (some parent) selection)).Perm
        (v.selectionFaults parent selection)
  | .field head span selections => by
    rw [addBelow, selectionFaults, selectionFaults]
    apply List.Perm.append_left
    cases looked : v.schema.field? parent head.name with
    | none => exact .refl _
    | some definition =>
      dsimp only
      cases known : v.schema.type? definition.type.baseName with
      | none => exact .refl _
      | some type =>
        have same : fieldType? v.schema (some parent) head.name = some type := by
          simp [fieldType?, looked, known]
        dsimp only
        rw [isEmpty_place, same]
        -- below a leaf and in an empty set nothing is checked, and a set stays empty or not empty
        split
        · exact .refl _
        · split
          · exact .refl _
          · split
            · rename_i hasFields
              exact (perm_selectionsFaults_place scalar writable (.inl hasFields) _ _).trans
                (perm_selectionsFaults_addBelowAll scalar writable type (.inl hasFields) selections)
            · exact .refl _
  | .inline head span selections => by
    rw [addBelow, selectionFaults, selectionFaults]
    cases conditional : head.condition with
    | none =>
      have same : conditionType? v.schema (some parent) head = some parent := by
        simp [conditionType?, conditional]
      rw [same]
      apply List.Perm.append_left
      exact (perm_selectionsFaults_place scalar writable visited _ _).trans
        (perm_selectionsFaults_addBelowAll scalar writable parent visited selections)
    | some name =>
      dsimp only
      cases resolved : v.composite name head.position with
      | error fault => exact .refl _
      | ok condition =>
        obtain ⟨known, hasFields⟩ := composite_eq_ok resolved
        have same : conditionType? v.schema (some parent) head = some condition := by
          simp [conditionType?, conditional, known]
        rw [same]
        apply List.Perm.append_left
        exact (perm_selectionsFaults_place scalar writable (.inl hasFields) _ _).trans
          (perm_selectionsFaults_addBelowAll scalar writable condition (.inl hasFields) selections)
  | .spread spread => by rw [addBelow]

theorem perm_selectionsFaults_addBelowAll (scalar : v.schema.IsBuiltIn "String")
    (writable : v.addsTypename = false) (parent : TypeDefinition) (visited : v.ChecksOn parent) :
    (selections : List Selection) →
      (v.selectionsFaults parent (addBelowAll v.schema (some parent) selections)).Perm
        (v.selectionsFaults parent selections)
  | [] => by rw [addBelowAll]
  | selection :: rest => by
    rw [addBelowAll, selectionsFaults, selectionsFaults]
    exact (perm_selectionFaults_addBelow scalar writable parent visited selection).append
      (perm_selectionsFaults_addBelowAll scalar writable parent visited rest)
end

theorem perm_selectionsFaults_addToSet (scalar : v.schema.IsBuiltIn "String")
    (writable : v.addsTypename = false) (visited : v.ChecksOn parent) (set : SelectionSet) :
    (v.selectionsFaults parent (addToSet v.schema (some parent) set).items).Perm
      (v.selectionsFaults parent set.items) := by
  unfold addToSet
  exact (perm_selectionsFaults_place scalar writable visited _ _).trans
    (perm_selectionsFaults_addBelowAll scalar writable parent visited set.items)

theorem perm_operationFaults (scalar : v.schema.IsBuiltIn "String") (writable : v.addsTypename = false)
    (earlier : List String) (operation : Operation) :
    (v.operationFaults earlier (decorateOperation v.schema operation)).Perm
      (v.operationFaults earlier operation) := by
  have kind : (decorateOperation v.schema operation).kind = operation.kind := rfl
  have set : (decorateOperation v.schema operation).selectionSet =
      addToSet v.schema (v.schema.root operation.kind).toOption operation.selectionSet := rfl
  unfold operationFaults
  apply List.Perm.append_left
  rw [kind, set]
  cases starts : v.schema.root operation.kind with
  | error fault => exact .refl _
  | ok root =>
    exact perm_selectionsFaults_addToSet scalar writable (.inr (Schema.isRoot_of_root starts)) _

theorem perm_fragmentFaults (scalar : v.schema.IsBuiltIn "String") (writable : v.addsTypename = false)
    (earlier : List String) (fragment : Fragment) :
    (v.fragmentFaults earlier (decorateFragment v.schema fragment)).Perm
      (v.fragmentFaults earlier fragment) := by
  have condition : (decorateFragment v.schema fragment).condition = fragment.condition := rfl
  have position : (decorateFragment v.schema fragment).position = fragment.position := rfl
  have set : (decorateFragment v.schema fragment).selectionSet =
      addToSet v.schema (v.schema.type? fragment.condition) fragment.selectionSet := rfl
  unfold fragmentFaults
  apply List.Perm.append_left
  rw [condition, position, set]
  cases resolved : v.composite fragment.condition fragment.position with
  | error fault => exact .refl _
  | ok parent =>
    obtain ⟨known, hasFields⟩ := composite_eq_ok resolved
    rw [known]
    exact perm_selectionsFaults_addToSet scalar writable (.inl hasFields) fragment.selectionSet

theorem perm_definitionsFaults (scalar : v.schema.IsBuiltIn "String") (writable : v.addsTypename = false)
    (definitions : List Definition) (operations fragments : List String) :
    (v.definitionsFaults operations fragments (definitions.map (decorate v.schema))).Perm
      (v.definitionsFaults operations fragments definitions) := by
  induction definitions generalizing operations fragments with
  | nil => exact .refl _
  | cons definition rest ih =>
    cases definition with
    | operation operation =>
      exact (perm_operationFaults scalar writable operations operation).append (ih _ fragments)
    | fragment fragment =>
      exact (perm_fragmentFaults scalar writable fragments fragment).append (ih operations _)

end Validation

namespace Document

variable {schema : Schema} {document : Document} {addsTypename : Bool}

theorem perm_faults_decorate (document : Document) (scalar : schema.IsBuiltIn "String") :
    ((document.decorate schema).faults schema false).Perm (document.faults schema false) := by
  have conditions : (document.decorate schema).fragments.map (fun f => (f.name, f.condition)) =
      document.fragments.map fun f => (f.name, f.condition) := by
    rw [fragments_decorate, List.map_map]
    rfl
  unfold faults
  rw [conditions]
  exact Validation.perm_definitionsFaults scalar rfl document.definitions [] []

def diagnosed : Except Error Unit → List Diagnostic
  | .error (.validation diagnostics) => diagnostics
  | _ => []

theorem diagnosed_validate (document : Document) (schema : Schema) (addsTypename : Bool) :
    diagnosed (document.validate schema addsTypename) = document.faults schema addsTypename := by
  unfold validate
  split
  · rename_i faultless
    rw [faultless]
    rfl
  · rfl

theorem validate_eq_ok_iff :
    document.validate schema addsTypename = .ok () ↔ document.faults schema addsTypename = [] := by
  unfold validate
  split
  · rename_i faultless
    simp [faultless]
  · rename_i faulty
    simpa using faulty

end Document

/-- Discriminators that are added to a document change nothing about its diagnostics but their order,
    for targets for which they may be written. -/
theorem validate_withDiscriminators {schema : Schema} (scalar : schema.IsBuiltIn "String")
    {document decorated : Document} (added : document.withDiscriminators schema = .ok decorated)
    {target : Target} (writable : target ≠ .swift) :
    (Document.diagnosed (decorated.validate schema target.addsTypename)).Perm
      (Document.diagnosed (document.validate schema target.addsTypename)) ∧
    (decorated.validate schema target.addsTypename = .ok () ↔
      document.validate schema target.addsTypename = .ok ()) := by
  have silent : target.addsTypename = false := by
    cases target <;> simp_all [Target.addsTypename]
  have same := document.perm_faults_decorate scalar
  rw [← Document.eq_decorate_of_withDiscriminators added] at same
  rw [silent, Document.diagnosed_validate, Document.diagnosed_validate, Document.validate_eq_ok_iff,
    Document.validate_eq_ok_iff]
  refine ⟨same, ?_⟩
  constructor
  · intro faultless
    rw [faultless] at same
    exact same.nil_eq.symm
  · intro faultless
    rw [faultless] at same
    exact same.eq_nil

/-- The fault of the selections below a type name moves to the front with it. -/
theorem validate_withDiscriminators_untidy :
    Document.diagnosed (Overlap.untidy.validate Overlap.schema Target.flow.addsTypename) =
      [⟨.unknownField "missing" "A", .start⟩,
        ⟨.subfieldsOfLeaf typenameField (.nonNull (.named "String")), .start⟩,
        ⟨.unknownType "Nothing", .start⟩] ∧
    Document.diagnosed (Overlap.tidy.validate Overlap.schema Target.flow.addsTypename) ≠
      Document.diagnosed (Overlap.untidy.validate Overlap.schema Target.flow.addsTypename) ∧
    (Document.diagnosed (Overlap.tidy.validate Overlap.schema Target.flow.addsTypename)).Perm
      (Document.diagnosed (Overlap.untidy.validate Overlap.schema Target.flow.addsTypename)) := by
  have scalar : Overlap.schema.IsBuiltIn "String" := rfl
  have writable : Target.flow ≠ .swift := by decide
  have same := validate_withDiscriminators scalar Overlap.untidy_tidied writable
  exact ⟨rfl, by decide, same.1⟩

end QueryTypes
