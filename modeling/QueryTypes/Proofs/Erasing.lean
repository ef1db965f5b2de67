import QueryTypes.Compiled
import QueryTypes.Discriminator
import QueryTypes.Proofs.Crossings
import QueryTypes.Proofs.Pruning

namespace QueryTypes

namespace Discriminator

mutual
def erase : Selection → Selection
  | .field head span selections => .field head span (eraseAll selections)
  | .inline head span selections => .inline head span (eraseAll selections)
  | .spread spread => .spread spread

def eraseAll : List Selection → List Selection
  | [] => []
  | selection :: rest =>
    if selection.isDiscriminator then eraseAll rest else erase selection :: eraseAll rest
end

theorem eraseAll_eq (selections : List Selection) :
    eraseAll selections = (selections.filter fun selection => !selection.isDiscriminator).map erase := by
  induction selections with
  | nil => rw [eraseAll]; rfl
  | cons selection rest ih =>
    rw [eraseAll, ih]
    cases plain : selection.isDiscriminator <;> simp [plain]

theorem isDiscriminator_addBelow (schema : Schema) (parent : Option TypeDefinition)
    (selection : Selection) :
    (addBelow schema parent selection).isDiscriminator = selection.isDiscriminator := by
  cases selection <;> rfl

theorem cons_eraseP_perm {α : Type} {p : α → Bool} {xs : List α} {x : α} (found : xs.find? p = some x) :
    (x :: xs.eraseP p).Perm xs := by
  obtain ⟨holds, before, after, rfl, others⟩ := List.find?_eq_some_iff_append.mp found
  rw [List.eraseP_append_right _ (by simpa using others), List.eraseP_cons_of_pos holds]
  exact List.perm_middle.symm

theorem hoist_perm (position : Position) (selections : List Selection) :
    (hoist position selections).Perm selections ∨
      hoist position selections = .discriminator position :: selections := by
  unfold hoist
  cases found : selections.find? Selection.isDiscriminator with
  | none => exact .inr rfl
  | some first => exact .inl (cons_eraseP_perm found)

theorem filter_eraseP_not {α : Type} (p : α → Bool) (xs : List α) :
    (xs.eraseP p).filter (fun x => !p x) = xs.filter fun x => !p x := by
  induction xs with
  | nil => rfl
  | cons x xs ih => cases plain : p x <;> simp [plain, ih]

theorem eraseAll_hoist (position : Position) (selections : List Selection) :
    eraseAll (hoist position selections) = eraseAll selections := by
  unfold hoist
  cases found : selections.find? Selection.isDiscriminator with
  | none => rw [eraseAll, if_pos (by rfl)]
  | some first =>
    have plain : first.isDiscriminator = true := List.find?_some found
    rw [eraseAll, if_pos plain, eraseAll_eq, eraseAll_eq, filter_eraseP_not]

theorem eraseAll_place (schema : Schema) (parent : Option TypeDefinition) (position : Position)
    (selections : List Selection) :
    eraseAll (place schema parent position selections) = eraseAll selections := by
  unfold place
  split
  · rfl
  · exact eraseAll_hoist position selections

mutual
theorem erase_addBelow (schema : Schema) (parent : Option TypeDefinition) :
    (selection : Selection) → erase (addBelow schema parent selection) = erase selection
  | .field head span selections => by
    rw [addBelow, erase, erase, eraseAll_place, eraseAll_addBelowAll schema _ selections]
  | .inline head span selections => by
    rw [addBelow, erase, erase, eraseAll_place, eraseAll_addBelowAll schema _ selections]
  | .spread spread => by rw [addBelow]

theorem eraseAll_addBelowAll (schema : Schema) (parent : Option TypeDefinition) :
    (selections : List Selection) → eraseAll (addBelowAll schema parent selections) = eraseAll selections
  | [] => by rw [addBelowAll]
  | selection :: rest => by
    rw [addBelowAll, eraseAll, eraseAll, isDiscriminator_addBelow, erase_addBelow schema parent selection,
      eraseAll_addBelowAll schema parent rest]
end

theorem eraseAll_addToSet (schema : Schema) (parent : Option TypeDefinition) (set : SelectionSet) :
    eraseAll (addToSet schema parent set).items = eraseAll set.items := by
  unfold addToSet
  rw [eraseAll_place, eraseAll_addBelowAll]

section Spreads

open Selection (spreadNames spreadNamesAll)

theorem mem_spreadNamesAll {selections : List Selection} {name : String} :
    name ∈ spreadNamesAll selections ↔ ∃ selection ∈ selections, name ∈ selection.spreadNames := by
  induction selections with
  | nil => simp [spreadNamesAll]
  | cons selection rest ih => simp [spreadNamesAll, ih]

theorem mem_spreadNamesAll_hoist (position : Position) (selections : List Selection) (name : String) :
    name ∈ spreadNamesAll (hoist position selections) ↔ name ∈ spreadNamesAll selections := by
  rcases hoist_perm position selections with reordered | added
  · simp only [mem_spreadNamesAll, reordered.mem_iff]
  · simp [added, spreadNamesAll, Selection.discriminator, spreadNames]

theorem mem_spreadNamesAll_place (schema : Schema) (parent : Option TypeDefinition)
    (position : Position) (selections : List Selection) (name : String) :
    name ∈ spreadNamesAll (place schema parent position selections) ↔
      name ∈ spreadNamesAll selections := by
  unfold place
  split
  · rfl
  · exact mem_spreadNamesAll_hoist position selections name

mutual
theorem mem_spreadNames_addBelow (schema : Schema) (parent : Option TypeDefinition) (name : String) :
    (selection : Selection) →
      (name ∈ (addBelow schema parent selection).spreadNames ↔ name ∈ selection.spreadNames)
  | .field head span selections => by
    rw [addBelow, spreadNames, spreadNames, mem_spreadNamesAll_place,
      mem_spreadNamesAll_addBelowAll schema _ name selections]
  | .inline head span selections => by
    rw [addBelow, spreadNames, spreadNames, mem_spreadNamesAll_place,
      mem_spreadNamesAll_addBelowAll schema _ name selections]
  | .spread spread => by rw [addBelow]

theorem mem_spreadNamesAll_addBelowAll (schema : Schema) (parent : Option TypeDefinition)
    (name : String) : (selections : List Selection) →
      (name ∈ spreadNamesAll (addBelowAll schema parent selections) ↔ name ∈ spreadNamesAll selections)
  | [] => by rw [addBelowAll]
  | selection :: rest => by
    rw [addBelowAll, spreadNamesAll, spreadNamesAll, List.mem_append, List.mem_append,
      mem_spreadNames_addBelow schema parent name selection,
      mem_spreadNamesAll_addBelowAll schema parent name rest]
end

theorem mem_spreadNamesAll_addToSet (schema : Schema) (parent : Option TypeDefinition)
    (set : SelectionSet) (name : String) :
    name ∈ spreadNamesAll (addToSet schema parent set).items ↔ name ∈ spreadNamesAll set.items := by
  unfold addToSet
  rw [mem_spreadNamesAll_place, mem_spreadNamesAll_addBelowAll]

end Spreads

end Discriminator

open Discriminator

def Fragment.erase (fragment : Fragment) : Fragment :=
  { fragment with
    selectionSet := { fragment.selectionSet with items := eraseAll fragment.selectionSet.items } }

namespace Compiler

variable {c : Compiler} {parent : TypeDefinition}

def erase (c : Compiler) : Compiler := { c with fragments := c.fragments.map Fragment.erase }

theorem fragment?_erase (c : Compiler) (name : String) :
    c.erase.fragment? name = (c.fragment? name).map Fragment.erase := by
  unfold fragment? erase
  rw [List.find?_map]
  rfl

theorem inlineType_isComposite {head : InlineHead} {condition : TypeDefinition}
    (hasFields : parent.isComposite = true) (resolved : c.inlineType parent head = .ok condition) :
    condition.isComposite = true := by
  unfold inlineType at resolved
  split at resolved
  · exact (composite_eq_ok.mp resolved).2
  · cases resolved
    exact hasFields

theorem insideOf_isComposite {condition : TypeDefinition} (hasFields : parent.isComposite = true)
    (also : condition.isComposite = true) : (c.insideOf parent condition).isComposite = true := by
  unfold insideOf
  split
  · exact also
  · exact hasFields

/-- A discriminator on a composite type is collected, and leaves no trace. -/
theorem collect_discriminator (scalar : c.schema.IsBuiltIn "String")
    {selection : Selection} (plain : selection.isDiscriminator = true)
    (hasFields : parent.isComposite = true) (expand : String → Expansion) (conditional : Bool)
    (s : Collection) :
    ∃ s', c.collect expand parent conditional selection s = .ok s' ∧ s'.prune = s.prune := by
  cases selection with
  | inline head span inner => cases plain
  | spread spread => cases plain
  | field head span inner =>
    simp only [Selection.isDiscriminator, Bool.and_eq_true, beq_iff_eq, Option.isNone_iff_eq_none,
      List.isEmpty_iff] at plain
    obtain ⟨⟨named, unlabelled⟩, _⟩ := plain
    obtain ⟨type, found, simple⟩ := scalar.exists_simple
    have looked : c.fieldType parent head.name = .ok (.typenameMeta, type) := by
      simp only [fieldType, named, Schema.field?_typename hasFields, FieldDefinition.typenameMeta,
        TypeRef.baseName, Compiler.type, found]
      rfl
    rw [collect_leaf looked simple]
    refine ⟨_, rfl, ?_⟩
    rw [Schema.name_of_type? found]
    apply Collection.prune_record_typename
    simp [makeField, FieldHead.responseName, unlabelled, named]

theorem observed_branchOut {condition : TypeDefinition}
    {collect other : TypeDefinition → Collection → Except Error Collection} {s t : Collection}
    (same : s.prune = t.prune)
    (inside : ∀ s t, s.prune = t.prune →
      observed Collection.prune (collect (c.insideOf parent condition) s) =
        observed Collection.prune (other (c.insideOf parent condition) t)) :
    observed Collection.prune (c.branchOut parent condition collect s) =
      observed Collection.prune (c.branchOut parent condition other t) := by
  rw [branchOut_eq, branchOut_eq]
  unfold insideOf at inside
  cases opened : c.opens parent condition with
  | false =>
    simp only [opened] at inside
    exact inside s t same
  | true =>
    simp only [opened] at inside
    have entered : (s.enter condition.name).prune = (t.enter condition.name).prune := by
      rw [Collection.prune_enter, Collection.prune_enter, same]
    refine observed_bind (inside _ _ entered) fun filled refilled _ _ alike => ?_
    have left : (filled.leave s condition.name).prune = (refilled.leave t condition.name).prune := by
      rw [Collection.prune_leave, Collection.prune_leave, same, alike]
    exact congrArg some left

/-- Inside the fragments on the stack the same is collected of selections on a composite type with
    discriminators and without them, apart from these. -/
def CollectsAlike (c : Compiler) (stack : List String) (selections : List Selection) : Prop :=
  ∀ parent : TypeDefinition, parent.isComposite = true → ∀ conditional s t, s.prune = t.prune →
    observed Collection.prune (c.collectAll (c.expand stack) parent conditional selections s) =
      observed Collection.prune
        (c.erase.collectAll (c.erase.expand stack) parent conditional (eraseAll selections) t)

mutual
theorem observed_collect (scalar : c.schema.IsBuiltIn "String")
    {stack : List String}
    (deeper : ∀ name fragment, c.fragment? name = some fragment → name ∉ stack →
      c.CollectsAlike (name :: stack) fragment.selectionSet.items)
    (parent : TypeDefinition) (hasFields : parent.isComposite = true) (conditional : Bool) :
    (selection : Selection) → ∀ s t, s.prune = t.prune →
      observed Collection.prune (c.collect (c.expand stack) parent conditional selection s) =
        observed Collection.prune
          (c.erase.collect (c.erase.expand stack) parent conditional (Discriminator.erase selection) t)
  | .field head span inner, s, t, same => by
    rw [Discriminator.erase]
    cases looked : c.fieldType parent head.name with
    | error fault =>
      have lookedErased : c.erase.fieldType parent head.name = .error fault := looked
      rw [collect, collect, looked, lookedErased, error_bind, error_bind]
    | ok found =>
      obtain ⟨definition, type⟩ := found
      have lookedErased : c.erase.fieldType parent head.name = .ok (definition, type) := looked
      cases below : type.isComposite with
      | false =>
        -- what is selected below a leaf is not collected, so it may differ in any way
        rw [collect_leaf looked below, collect_leaf lookedErased below]
        exact congrArg some (Collection.prune_record_congr same rfl rfl)
      | true =>
        rw [collect_composite looked below, collect_composite lookedErased below]
        refine observed_bind (collectsAlike_of scalar deeper inner type below false {} {} rfl) ?_
        intro filled refilled _ _ alike
        refine congrArg some (Collection.prune_record_congr same ?_ (congrArg Collection.leaves alike))
        rw [prune_makeField, prune_makeField, prune_finish, prune_finish, alike]
        rfl
  | .inline head span inner, s, t, same => by
    rw [Discriminator.erase, collect, collect]
    cases resolved : c.inlineType parent head with
    | error fault =>
      have resolvedErased : c.erase.inlineType parent head = .error fault := resolved
      rw [resolvedErased, error_bind, error_bind]
    | ok condition =>
      have resolvedErased : c.erase.inlineType parent head = .ok condition := resolved
      have also := inlineType_isComposite hasFields resolved
      rw [resolvedErased, ok_bind, ok_bind]
      apply observed_branchOut same
      intro s t same
      exact collectsAlike_of scalar deeper inner _ (insideOf_isComposite hasFields also) _ s t same
  | .spread spread, s, t, same => by
    have noted : (s.addSpread spread.name).prune = (t.addSpread spread.name).prune := by
      rw [Collection.prune_addSpread, Collection.prune_addSpread, same]
    rw [Discriminator.erase, collect, collect]
    have merges : c.erase.mergeSpreads = c.mergeSpreads := rfl
    rw [merges]
    split
    · rw [expand_eq, expand_eq, fragment?_erase]
      split
      · rfl
      · rename_i fresh
        cases found : c.fragment? spread.name with
        | none => rfl
        | some fragment =>
          have composites : c.erase.composite fragment.erase.condition = c.composite fragment.condition := rfl
          simp only [Option.map_some, composites]
          cases resolved : c.composite fragment.condition with
          | error fault => rw [error_bind, error_bind]
          | ok condition =>
            have also := (composite_eq_ok.mp resolved).2
            apply observed_branchOut noted
            intro s t same
            exact deeper spread.name fragment found fresh _ (insideOf_isComposite hasFields also) _ s t same
    · exact congrArg some noted

theorem collectsAlike_of (scalar : c.schema.IsBuiltIn "String")
    {stack : List String}
    (deeper : ∀ name fragment, c.fragment? name = some fragment → name ∉ stack →
      c.CollectsAlike (name :: stack) fragment.selectionSet.items) :
    (selections : List Selection) → c.CollectsAlike stack selections
  | [] => by
    intro parent _ conditional s t same
    rw [eraseAll]
    exact congrArg some same
  | selection :: rest => by
    intro parent hasFields conditional s t same
    rw [eraseAll, collectAll]
    cases plain : selection.isDiscriminator with
    | true =>
      obtain ⟨middle, done, alike⟩ :=
        collect_discriminator scalar plain hasFields (c.expand stack) conditional s
      rw [done, ok_bind]
      exact collectsAlike_of scalar deeper rest parent hasFields conditional middle t (alike.trans same)
    | false =>
      refine observed_bind (observed_collect scalar deeper parent hasFields conditional selection s t same) ?_
      intro middle between _ _ alike
      exact collectsAlike_of scalar deeper rest parent hasFields conditional middle between alike
end

theorem collectsAlike (scalar : c.schema.IsBuiltIn "String")
    (stack : List String) (selections : List Selection) : c.CollectsAlike stack selections := by
  induction stack using c.stack_induction generalizing selections with
  | step stack deeper =>
    apply collectsAlike_of scalar
    intro name fragment found fresh
    exact deeper name fragment found fresh fragment.selectionSet.items

/-- Compilers and selections that differ in discriminators only collect the same, apart from these. -/
theorem observed_collectFrom {other : Compiler} (erased : other.erase = c.erase)
    (scalar : c.schema.IsBuiltIn "String")
    {selections others : List Selection} (alike : eraseAll others = eraseAll selections)
    (hasFields : parent.isComposite = true) (stack : List String) :
    observed Collection.prune (c.collectFrom stack parent selections) =
      observed Collection.prune (other.collectFrom stack parent others) := by
  have alsoScalar : other.schema.IsBuiltIn "String" := by
    change other.erase.schema.IsBuiltIn "String"
    rw [erased]
    exact scalar
  have left := collectsAlike scalar stack selections parent hasFields false {} {} rfl
  have right := collectsAlike alsoScalar stack others parent hasFields false {} {} rfl
  rw [erased, alike] at right
  exact left.trans right.symm

end Compiler

end QueryTypes
