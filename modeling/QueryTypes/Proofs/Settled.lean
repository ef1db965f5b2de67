import QueryTypes.Proofs.Erasing
import QueryTypes.Proofs.ResponseKeys

namespace QueryTypes

namespace Discriminator

variable {schema : Schema} {parent : Option TypeDefinition}

theorem mem_hoist {position : Position} {selections : List Selection} {selection : Selection}
    (member : selection ∈ hoist position selections) :
    selection ∈ selections ∨ selection = .discriminator position := by
  rcases hoist_perm position selections with reordered | added
  · exact .inl (reordered.mem_iff.mp member)
  · rw [added, List.mem_cons] at member
    exact member.symm

theorem head?_hoist (position : Position) (selections : List Selection) :
    (hoist position selections).head?.any Selection.isDiscriminator = true := by
  unfold hoist
  cases found : selections.find? Selection.isDiscriminator with
  | none => rfl
  | some first =>
    have plain : first.isDiscriminator = true := List.find?_some found
    simpa using plain

theorem place_ne_nil {position : Position} {selections : List Selection} (filled : selections ≠ []) :
    place schema parent position selections ≠ [] := by
  unfold place
  split
  · exact filled
  · intro none
    have first := head?_hoist position selections
    rw [none] at first
    cases first

theorem addBelowAll_eq (parent : Option TypeDefinition) (selections : List Selection) :
    addBelowAll schema parent selections = selections.map (addBelow schema parent) := by
  induction selections with
  | nil => rfl
  | cons selection rest ih => rw [addBelowAll, ih, List.map_cons]

/-- Whether selections on the type `parent` need no discriminator or start with one. -/
def placed (schema : Schema) (parent : Option TypeDefinition) (selections : List Selection) : Bool :=
  selections.isEmpty || parent.any (schema.isRoot ·.name) ||
    selections.head?.any Selection.isDiscriminator

mutual
def settled (schema : Schema) (parent : Option TypeDefinition) : Selection → Bool
  | .field head _ selections =>
    let type := fieldType? schema parent head.name
    placed schema type selections && settledAll schema type selections
  | .inline head _ selections =>
    let type := conditionType? schema parent head
    placed schema type selections && settledAll schema type selections
  | .spread _ => true

def settledAll (schema : Schema) (parent : Option TypeDefinition) : List Selection → Bool
  | [] => true
  | selection :: rest => settled schema parent selection && settledAll schema parent rest
end

def settledSet (schema : Schema) (parent : Option TypeDefinition) (set : SelectionSet) : Bool :=
  placed schema parent set.items && settledAll schema parent set.items

def settledDefinition (schema : Schema) : Definition → Bool
  | .operation o => (schema.root o.kind).toOption.any fun root => settledSet schema (some root) o.selectionSet
  | .fragment f => settledSet schema (schema.type? f.condition) f.selectionSet

theorem settledAll_iff {selections : List Selection} :
    settledAll schema parent selections = true ↔
      ∀ selection ∈ selections, settled schema parent selection = true := by
  induction selections with
  | nil => simp [settledAll]
  | cons selection rest ih => simp [settledAll, ih]

theorem placed_place (position : Position) (selections : List Selection) :
    placed schema parent (place schema parent position selections) = true := by
  unfold place
  split
  · rename_i exempt
    unfold placed
    rw [exempt, Bool.true_or]
  · unfold placed
    rw [head?_hoist, Bool.or_true]

theorem place_eq_self {selections : List Selection} (ready : placed schema parent selections = true)
    (position : Position) : place schema parent position selections = selections := by
  unfold place
  split
  · rfl
  · rename_i needed
    have first : selections.head?.any Selection.isDiscriminator = true := by
      simpa [placed, needed] using ready
    cases selections with
    | nil => cases first
    | cons selection rest =>
      have plain : selection.isDiscriminator = true := by simpa using first
      simp [hoist, plain]

theorem settled_discriminator (position : Position) :
    settled schema parent (.discriminator position) = true := by
  simp [Selection.discriminator, settled, settledAll, placed]

theorem settledAll_place {selections : List Selection}
    (below : settledAll schema parent selections = true) (position : Position) :
    settledAll schema parent (place schema parent position selections) = true := by
  unfold place
  split
  · exact below
  · rw [settledAll_iff] at below ⊢
    intro selection member
    rcases mem_hoist member with old | rfl
    · exact below selection old
    · exact settled_discriminator position

mutual
theorem settled_addBelow (parent : Option TypeDefinition) :
    (selection : Selection) → settled schema parent (addBelow schema parent selection) = true
  | .field head span selections => by
    rw [addBelow, settled, placed_place, settledAll_place (settledAll_addBelowAll _ selections)]
    rfl
  | .inline head span selections => by
    rw [addBelow, settled, placed_place, settledAll_place (settledAll_addBelowAll _ selections)]
    rfl
  | .spread spread => by rw [addBelow, settled]

theorem settledAll_addBelowAll (parent : Option TypeDefinition) :
    (selections : List Selection) →
      settledAll schema parent (addBelowAll schema parent selections) = true
  | [] => by rw [addBelowAll, settledAll]
  | selection :: rest => by
    rw [addBelowAll, settledAll, settled_addBelow parent selection, settledAll_addBelowAll parent rest]
    rfl
end

mutual
theorem addBelow_eq_self (parent : Option TypeDefinition) :
    (selection : Selection) → settled schema parent selection = true →
      addBelow schema parent selection = selection
  | .field head span selections, ready => by
    rw [settled, Bool.and_eq_true] at ready
    rw [addBelow, addBelowAll_eq_self _ selections ready.2, place_eq_self ready.1]
  | .inline head span selections, ready => by
    rw [settled, Bool.and_eq_true] at ready
    rw [addBelow, addBelowAll_eq_self _ selections ready.2, place_eq_self ready.1]
  | .spread spread, _ => by rw [addBelow]

theorem addBelowAll_eq_self (parent : Option TypeDefinition) :
    (selections : List Selection) → settledAll schema parent selections = true →
      addBelowAll schema parent selections = selections
  | [], _ => by rw [addBelowAll]
  | selection :: rest, ready => by
    rw [settledAll, Bool.and_eq_true] at ready
    rw [addBelowAll, addBelow_eq_self parent selection ready.1, addBelowAll_eq_self parent rest ready.2]
end

theorem settledSet_addToSet (parent : Option TypeDefinition) (set : SelectionSet) :
    settledSet schema parent (addToSet schema parent set) = true := by
  unfold settledSet addToSet
  rw [placed_place, settledAll_place (settledAll_addBelowAll parent set.items)]
  rfl

theorem addToSet_eq_self {set : SelectionSet} (ready : settledSet schema parent set = true) :
    addToSet schema parent set = set := by
  unfold settledSet at ready
  rw [Bool.and_eq_true] at ready
  unfold addToSet
  rw [addBelowAll_eq_self parent set.items ready.2, place_eq_self ready.1]

theorem settledDefinition_of_addToDefinition {definition result : Definition}
    (added : addToDefinition schema definition = .ok result) :
    settledDefinition schema result = true := by
  cases definition with
  | fragment fragment =>
    cases added
    exact settledSet_addToSet _ fragment.selectionSet
  | operation operation =>
    obtain ⟨root, starts, finished⟩ := bind_eq_ok.mp added
    cases finished
    change (schema.root operation.kind).toOption.any _ = true
    rw [starts]
    exact settledSet_addToSet (some root) operation.selectionSet

theorem addToDefinition_eq_self {definition : Definition}
    (ready : settledDefinition schema definition = true) :
    addToDefinition schema definition = .ok definition := by
  cases definition with
  | fragment fragment =>
    have same := addToSet_eq_self ready
    simp only [addToDefinition, same]
  | operation operation =>
    unfold settledDefinition at ready
    cases starts : schema.root operation.kind with
    | error fault => simp [starts, Except.toOption] at ready
    | ok root =>
      have same : addToSet schema (some root) operation.selectionSet = operation.selectionSet :=
        addToSet_eq_self (by simpa [starts, Except.toOption] using ready)
      simp only [addToDefinition, starts, ok_bind, same]
      rfl

end Discriminator

open Discriminator

namespace Document

variable {schema : Schema} {document decorated : Document}

/-- Every selection set of the document that needs a discriminator has it in front. -/
def Settled (schema : Schema) (document : Document) : Prop :=
  ∀ definition ∈ document.definitions, settledDefinition schema definition = true

theorem settled_of_withDiscriminators (added : document.withDiscriminators schema = .ok decorated) :
    decorated.Settled schema := by
  obtain ⟨definitions, done, finished⟩ := bind_eq_ok.mp added
  cases finished
  intro definition member
  obtain ⟨source, _, ok⟩ := exists_of_mem_mapM done member
  exact settledDefinition_of_addToDefinition ok

/-- The documents that stay as they are when discriminators are added. -/
theorem withDiscriminators_eq_self_iff :
    document.withDiscriminators schema = .ok document ↔ document.Settled schema := by
  constructor
  · exact settled_of_withDiscriminators
  · intro ready
    have same : document.definitions.mapM (addToDefinition schema) = .ok document.definitions :=
      mapM_eq_self fun definition member => addToDefinition_eq_self (ready definition member)
    unfold withDiscriminators
    rw [same]
    rfl

end Document

-- A document in which discriminators are missing or late, below a leaf and on unknown types too.
namespace Overlap

def withFragment (selections inFragment : List Selection) : Document :=
  ⟨(document selections).definitions ++
    [.fragment ⟨.start, "F", "Nothing", [], ⟨default, inFragment⟩⟩]⟩

def typename (inner : List Selection) : Selection := field typenameField inner

def untidy : Document :=
  withFragment
    [field "x" [], field "missing" [field "z" []], typename [field "y" []], inline "B" [field "y" []]]
    [field "a" []]

def tidy : Document :=
  let added := Selection.discriminator (default : Span).first
  withFragment
    [typename [added, field "y" []], field "x" [], field "missing" [added, field "z" []],
      inline "B" [added, field "y" []]]
    [added, field "a" []]

theorem untidy_tidied : untidy.withDiscriminators schema = .ok tidy := rfl

end Overlap

/-- Adding discriminators to a document that has them changes nothing. -/
theorem withDiscriminators_idempotent {schema : Schema} {document decorated : Document}
    (added : document.withDiscriminators schema = .ok decorated) :
    decorated.withDiscriminators schema = .ok decorated :=
  Document.withDiscriminators_eq_self_iff.mpr (Document.settled_of_withDiscriminators added)

/-- The first pass changes this document, the second one does not. -/
theorem withDiscriminators_idempotent_tidy :
    Overlap.untidy.withDiscriminators Overlap.schema = .ok Overlap.tidy ∧ Overlap.untidy ≠ Overlap.tidy ∧
      Overlap.tidy.withDiscriminators Overlap.schema = .ok Overlap.tidy :=
  ⟨Overlap.untidy_tidied, by decide, withDiscriminators_idempotent Overlap.untidy_tidied⟩

end QueryTypes
