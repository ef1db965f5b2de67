import QueryTypes.Proofs.Coherence
import QueryTypes.Proofs.Everywhere

namespace QueryTypes

open ResponseField

def Directive.admits (truth : Directive → Bool) (directive : Directive) : Bool :=
  if directive.name == "skip" then !truth directive
  else if directive.name == "include" then truth directive
  else true

theorem admits_of_not_isConditional {directives : List Directive} (always : isConditional directives = false)
    (truth : Directive → Bool) : directives.all (Directive.admits truth) = true := by
  rw [isConditional, List.any_eq_false] at always
  apply List.all_eq_true.mpr
  intro directive member
  have other := always directive member
  simp only [Bool.or_eq_true, not_or] at other
  rw [Directive.admits, if_neg other.1, if_neg other.2]

theorem isConditional_append (outer inner : List Directive) :
    isConditional (outer ++ inner) = (isConditional outer || isConditional inner) := List.any_append

namespace ResponseField

/-- Below fields, at the end of a path of response names, there is an unconditional field. -/
def SteadyAt (key : String) : List String → List ResponseField → Prop
  | [], fields => ∃ field ∈ fields, field.responseName = key ∧ field.isConditional = false
  | name :: path, fields => ∃ field ∈ fields, field.responseName = name ∧ SteadyAt key path field.fields

/-- Merging keeps all unconditional fields and adds none. -/
theorem steadyAt_mergeAll (key : String) (path : List String) (into fields : List ResponseField) :
    SteadyAt key path (mergeAll into fields) ↔ SteadyAt key path into ∨ SteadyAt key path fields := by
  rw [mergeAll_eq]
  induction path generalizing into fields with
  | nil =>
    apply exists_mem_mergeBy responseName_absorb
    intro x y
    exact Bool.and_eq_false_iff
  | cons name path ih =>
    apply exists_mem_mergeBy responseName_absorb
    intro x y
    rw [← ih, ← mergeAll_eq]
    rfl

end ResponseField

namespace Compiler

/-- A field in selections, through fragments that apply to every object of their type, with the
    directives on these and on the field. -/
inductive Offers (c : Compiler) (parent : TypeDefinition) :
    List Selection → List Directive → FieldHead → List Selection → Prop
  | field {selections head span inner} (selected : .field head span inner ∈ selections) :
    Offers c parent selections head.directives head inner
  | fragment {selections selection condition within directives head inner}
    (selected : selection ∈ selections) (fragment : c.FragmentOn parent selection condition within)
    (applies : c.opens parent condition = false) (below : Offers c parent within directives head inner) :
    Offers c parent selections (selection.directives ++ directives) head inner

/-- From selections on a type down to those that the fields along a path of response names have, with
    their type. -/
inductive Along (c : Compiler) : TypeDefinition → List Selection → List String →
    TypeDefinition → List Selection → Prop
  | here {parent selections} : Along c parent selections [] parent selections
  | inside {parent selections directives head inner definition type path last lastSelections}
    (offers : c.Offers parent selections directives head inner)
    (looked : c.fieldType parent head.name = .ok (definition, type)) (hasFields : type.isComposite = true)
    (onward : Along c type inner path last lastSelections) :
    Along c parent selections (head.responseName :: path) last lastSelections

def Guards (c : Compiler) (root : TypeDefinition) (start : List Selection) (path : List String)
    (key : String) (directives : List Directive) : Prop :=
  ∃ type selections head inner, c.Along root start path type selections ∧
    c.Offers type selections directives head inner ∧ head.responseName = key

section Offers

variable {c : Compiler} {parent : TypeDefinition} {rest within : List Selection} {selection : Selection}
  {condition : TypeDefinition} {directives : List Directive} {head : FieldHead} {inner : List Selection}

theorem not_offers_nil : ¬c.Offers parent [] directives head inner := by
  intro offers
  cases offers with
  | field selected => cases selected
  | fragment selected => cases selected

theorem Offers.widen {selections : List Selection} (offers : c.Offers parent rest directives head inner)
    (subset : rest ⊆ selections) : c.Offers parent selections directives head inner := by
  cases offers with
  | field selected => exact .field (subset selected)
  | fragment selected fragment applies below => exact .fragment (subset selected) fragment applies below

theorem offers_cons :
    c.Offers parent (selection :: rest) directives head inner ↔
      c.Offers parent [selection] directives head inner ∨ c.Offers parent rest directives head inner := by
  constructor
  · intro offers
    cases offers with
    | field selected =>
      rcases List.mem_cons.mp selected with rfl | later
      · exact .inl (.field (List.mem_singleton_self _))
      · exact .inr (.field later)
    | fragment selected fragment applies below =>
      rcases List.mem_cons.mp selected with rfl | later
      · exact .inl (.fragment (List.mem_singleton_self _) fragment applies below)
      · exact .inr (.fragment later fragment applies below)
  · rintro (first | later)
    · exact first.widen (List.cons_subset.mpr ⟨List.mem_cons_self, List.nil_subset _⟩)
    · exact later.widen (List.subset_cons_self _ _)

theorem offers_field {first : FieldHead} {span : Span} :
    c.Offers parent [.field first span within] directives head inner ↔
      directives = first.directives ∧ head = first ∧ inner = within := by
  constructor
  · intro offers
    cases offers with
    | field selected =>
      cases List.mem_singleton.mp selected
      exact ⟨rfl, rfl, rfl⟩
    | fragment selected fragment =>
      cases List.mem_singleton.mp selected
      cases fragment
  · rintro ⟨rfl, rfl, rfl⟩
    exact .field (List.mem_singleton_self _)

theorem offers_fragment (fragment : c.FragmentOn parent selection condition within) :
    c.Offers parent [selection] directives head inner ↔ c.opens parent condition = false ∧
      ∃ more, directives = selection.directives ++ more ∧ c.Offers parent within more head inner := by
  constructor
  · intro offers
    cases offers with
    | field selected =>
      cases List.mem_singleton.mp selected
      cases fragment
    | fragment selected also applies below =>
      cases List.mem_singleton.mp selected
      obtain ⟨rfl, rfl⟩ := fragment.unique also
      exact ⟨applies, _, rfl, below⟩
  · rintro ⟨applies, more, rfl, below⟩
    exact .fragment (List.mem_singleton_self _) fragment applies below

theorem not_offers_spread (unmerged : c.mergeSpreads = false) {spread : FragmentSpread} :
    ¬c.Offers parent [.spread spread] directives head inner := by
  intro offers
  cases offers with
  | field selected => cases List.mem_singleton.mp selected
  | fragment selected fragment =>
    cases List.mem_singleton.mp selected
    cases fragment with
    | spread merged =>
      rw [unmerged] at merged
      cases merged

end Offers

def Supplies (c : Compiler) (such : TypeDefinition → Bool → FieldHead → List Selection → Prop) (name : String)
    (parent : TypeDefinition) (conditional : Bool) (selections : List Selection) : Prop :=
  ∃ directives head inner, c.Offers parent selections directives head inner ∧ head.responseName = name ∧
    such parent (conditional || isConditional directives) head inner

section Supplies

variable {c : Compiler} {such : TypeDefinition → Bool → FieldHead → List Selection → Prop} {name : String}
  {parent condition : TypeDefinition} {conditional : Bool} {rest within : List Selection}
  {selection : Selection}

theorem not_supplies_nil : ¬c.Supplies such name parent conditional [] := by
  rintro ⟨_, _, _, offers, _⟩
  exact not_offers_nil offers

theorem supplies_cons : c.Supplies such name parent conditional (selection :: rest) ↔
    c.Supplies such name parent conditional [selection] ∨ c.Supplies such name parent conditional rest := by
  constructor
  · rintro ⟨directives, head, inner, offers, found⟩
    rcases offers_cons.mp offers with first | later
    · exact .inl ⟨directives, head, inner, first, found⟩
    · exact .inr ⟨directives, head, inner, later, found⟩
  · rintro (⟨directives, head, inner, offers, found⟩ | ⟨directives, head, inner, offers, found⟩)
    · exact ⟨directives, head, inner, offers_cons.mpr (.inl offers), found⟩
    · exact ⟨directives, head, inner, offers_cons.mpr (.inr offers), found⟩

theorem supplies_field {head : FieldHead} {span : Span} :
    c.Supplies such name parent conditional (.field head span within :: rest) ↔
      head.responseName = name ∧ such parent (conditional || isConditional head.directives) head within ∨
        c.Supplies such name parent conditional rest := by
  rw [supplies_cons]
  apply or_congr_left
  simp only [Supplies, offers_field]
  constructor
  · rintro ⟨_, _, _, ⟨rfl, rfl, rfl⟩, found⟩
    exact found
  · intro found
    exact ⟨_, _, _, ⟨rfl, rfl, rfl⟩, found⟩

/-- The directives on a fragment count for all that is in it. -/
theorem supplies_merge (fragment : c.FragmentOn parent selection condition within)
    (applies : c.opens parent condition = false) :
    c.Supplies such name parent conditional (selection :: rest) ↔
      c.Supplies such name parent (conditional || isConditional selection.directives) within ∨
        c.Supplies such name parent conditional rest := by
  rw [supplies_cons]
  apply or_congr_left
  simp only [Supplies, offers_fragment fragment, applies, true_and]
  constructor
  · rintro ⟨_, head, inner, ⟨more, rfl, offers⟩, named, found⟩
    rw [isConditional_append, ← Bool.or_assoc] at found
    exact ⟨more, head, inner, offers, named, found⟩
  · rintro ⟨more, head, inner, offers, named, found⟩
    refine ⟨_, head, inner, ⟨more, rfl, offers⟩, named, ?_⟩
    rwa [isConditional_append, ← Bool.or_assoc]

theorem supplies_branch (fragment : c.FragmentOn parent selection condition within)
    (opened : c.opens parent condition = true) :
    c.Supplies such name parent conditional (selection :: rest) ↔
      c.Supplies such name parent conditional rest := by
  rw [supplies_cons]
  apply or_iff_right
  rintro ⟨_, _, _, offers, _⟩
  have applies := ((offers_fragment fragment).mp offers).1
  rw [opened] at applies
  cases applies

theorem supplies_mention (unmerged : c.mergeSpreads = false) {spread : FragmentSpread} :
    c.Supplies such name parent conditional (.spread spread :: rest) ↔
      c.Supplies such name parent conditional rest := by
  rw [supplies_cons]
  apply or_iff_right
  rintro ⟨_, _, _, offers, _⟩
  exact not_offers_spread unmerged offers

end Supplies

/-- What a field has if one of those merged into it has it is found in the target exactly if it was
    there before or an offered field is compiled to one that has it. -/
theorem Run.exists_target {c : Compiler} (holds : ResponseField → Prop)
    (such : TypeDefinition → Bool → FieldHead → List Selection → Prop)
    (either : ∀ x y : ResponseField, holds (x.absorb y) ↔ holds x ∨ holds y)
    (ofLeaf : ∀ {parent head definition type inner} (flag : Bool),
      c.fieldType parent head.name = .ok (definition, type) → type.isComposite = false →
      (holds (makeField head definition flag ⟨[], [], [], [type.name]⟩) ↔ such parent flag head inner))
    (ofComposite : ∀ {stack parent head definition type inner below} (flag : Bool),
      c.fieldType parent head.name = .ok (definition, type) → type.isComposite = true →
      c.Run stack type false inner {} below →
      (holds (makeField head definition flag (c.finish type below)) ↔ such parent flag head inner))
    (name : String) {stack : List String} {parent : TypeDefinition} {conditional : Bool}
    {selections : List Selection} {s s' : Collection} (run : c.Run stack parent conditional selections s s') :
    (∃ z ∈ s'.target.fields, z.responseName = name ∧ holds z) ↔
      (∃ x ∈ s.target.fields, x.responseName = name ∧ holds x) ∨
        c.Supplies such name parent conditional selections := by
  have recorded (s : Collection) (field : ResponseField) (leaves : List String) :
      (∃ z ∈ (s.record field leaves).target.fields, z.responseName = name ∧ holds z) ↔
        (∃ x ∈ s.target.fields, x.responseName = name ∧ holds x) ∨ field.responseName = name ∧ holds field := by
    change (∃ z ∈ field.mergeInto s.target.fields, z.responseName = name ∧ holds z) ↔ _
    rw [mergeInto_eq]
    exact exists_mem_mergeBy_single responseName_absorb either _ _ _
  have noted (s : Collection) (selection : Selection) :
      (s.note selection).target.fields = s.target.fields := s.fieldsAt_note selection none
  induction run with
  | nil => exact (or_iff_left not_supplies_nil).symm
  | leaf looked simple after ih =>
    rw [supplies_field, ← or_assoc, ← ofLeaf _ looked simple]
    refine ih.trans (or_congr_left ?_)
    exact recorded _ _ _
  | composite looked hasFields inside after _ ih =>
    rw [supplies_field, ← or_assoc, ← ofComposite _ looked hasFields inside]
    refine ih.trans (or_congr_left ?_)
    exact recorded _ _ _
  | merge fragment fresh applies inside after below ih =>
    rw [supplies_merge fragment applies, ← or_assoc]
    refine ih.trans (or_congr_left ?_)
    rwa [noted] at below
  | @branch _ _ _ selection _ condition _ s _ _ fragment fresh opened inside after _ ih =>
    -- the target is put back when the branch is left
    rw [supplies_branch fragment opened, ← noted s selection]
    exact ih
  | mention unmerged after ih =>
    rw [supplies_mention unmerged]
    exact ih

/-- A field at the end of a path is unconditional exactly if it is selected once without a directive
    that may leave it out of its selection set. -/
theorem Run.steadyAt {c : Compiler} {stack : List String} {parent : TypeDefinition} {selections : List Selection}
    {s : Collection} (run : c.Run stack parent false selections {} s) (path : List String) (key : String) :
    SteadyAt key path s.target.fields ↔
      ∃ directives, c.Guards parent selections path key directives ∧ isConditional directives = false := by
  have nothing {holds : ResponseField → Prop} : ¬∃ x ∈ ({} : Collection).target.fields, holds x := by
    rintro ⟨_, member, _⟩
    cases member
  induction path generalizing stack parent selections s with
  | nil =>
    have found := run.exists_target (fun field => field.isConditional = false) (fun _ flag _ _ => flag = false)
      (fun _ _ => Bool.and_eq_false_iff) (fun _ _ _ => Iff.rfl) (fun _ _ _ _ => Iff.rfl) key
    refine found.trans ((or_iff_right nothing).trans ?_)
    constructor
    · rintro ⟨directives, head, inner, offers, named, always⟩
      exact ⟨directives, ⟨parent, selections, head, inner, .here, offers, named⟩, always⟩
    · rintro ⟨directives, ⟨_, _, head, inner, ⟨⟩, offers, named⟩, always⟩
      exact ⟨directives, head, inner, offers, named, always⟩
  | cons name path ih =>
    let leads (above : TypeDefinition) (_ : Bool) (head : FieldHead) (within : List Selection) : Prop :=
      ∃ definition type, c.fieldType above head.name = .ok (definition, type) ∧ type.isComposite = true ∧
        ∃ directives, c.Guards type within path key directives ∧ isConditional directives = false
    have found := run.exists_target (fun field => SteadyAt key path field.fields) leads ?_ ?_ ?_ name
    · refine found.trans ((or_iff_right nothing).trans ?_)
      constructor
      · rintro ⟨_, _, _, offers, rfl, _, _, looked, hasFields, directives, guards, always⟩
        obtain ⟨type, inner, head, within, along, last⟩ := guards
        exact ⟨directives, ⟨type, inner, head, within, .inside offers looked hasFields along, last⟩, always⟩
      · rintro ⟨directives, ⟨type, inner, head, within, along, last⟩, always⟩
        cases along with
        | inside offers looked hasFields onward =>
          exact ⟨_, _, _, offers, rfl, _, _, looked, hasFields, directives,
            ⟨type, inner, head, within, onward, last⟩, always⟩
    · intro x y
      exact steadyAt_mergeAll key path x.fields y.fields
    · -- nothing is below a leaf
      intro above head definition type within flag looked simple
      constructor
      · intro steady
        cases path <;> exact absurd steady nothing
      · rintro ⟨_, _, also, hasFields, _⟩
        cases looked.symm.trans also
        rw [simple] at hasFields
        cases hasFields
    · intro stack above head definition type within below flag looked hasFields inside
      refine (ih inside).trans ?_
      constructor
      · intro found
        exact ⟨definition, type, looked, hasFields, found⟩
      · rintro ⟨_, _, also, _, found⟩
        cases looked.symm.trans also
        exact found

/-- The fields that a server collects for an object of a type: those that the directives on them and on
    the fragments around them admit, in fragments whose condition the type meets. -/
inductive Collects (c : Compiler) (truth : Directive → Bool) (object : String) :
    List Selection → FieldHead → List Selection → Prop
  | field {selections head span inner} (selected : .field head span inner ∈ selections)
    (admitted : head.directives.all (Directive.admits truth) = true) :
    Collects c truth object selections head inner
  | inline {selections fragment span within head inner} (selected : .inline fragment span within ∈ selections)
    (admitted : fragment.directives.all (Directive.admits truth) = true)
    (applies : ∀ condition ∈ fragment.condition, object ∈ c.schema.possibleTypes condition)
    (collected : Collects c truth object within head inner) :
    Collects c truth object selections head inner
  | spread {selections spread fragment head inner} (selected : .spread spread ∈ selections)
    (admitted : spread.directives.all (Directive.admits truth) = true)
    (found : c.fragment? spread.name = some fragment)
    (applies : object ∈ c.schema.possibleTypes fragment.condition)
    (collected : Collects c truth object fragment.selectionSet.items head inner) :
    Collects c truth object selections head inner

/-- The selection sets that a server merges for the object at a path of response names. The objects
    on the path are of the given types. -/
inductive Merges (c : Compiler) (truth : Directive → Bool) :
    (List String → String) → List Selection → List String → List Selection → Prop
  | here {object selections} : Merges c truth object selections [] selections
  | inside {object selections head inner path last}
    (collected : c.Collects truth (object []) selections head inner)
    (onward : Merges c truth (fun path => object (head.responseName :: path)) inner path last) :
    Merges c truth object selections (head.responseName :: path) last

def Returns (c : Compiler) (truth : Directive → Bool) (object : List String → String)
    (start : List Selection) (path : List String) (key : String) : Prop :=
  ∃ selections head inner, c.Merges truth object start path selections ∧
    c.Collects truth (object path) selections head inner ∧ head.responseName = key

section Returns

variable {c : Compiler} {parent : TypeDefinition} {selections : List Selection} {truth : Directive → Bool}

theorem FragmentOn.collects {selection : Selection} {condition : TypeDefinition} {within : List Selection}
    {object : String} {head : FieldHead} {inner : List Selection}
    (fragment : c.FragmentOn parent selection condition within) (selected : selection ∈ selections)
    (admitted : selection.directives.all (Directive.admits truth) = true)
    (applies : object ∈ c.schema.possibleTypes condition.name)
    (collected : c.Collects truth object within head inner) :
    c.Collects truth object selections head inner := by
  cases fragment with
  | @inline fragment span _ _ resolved =>
    refine .inline selected admitted ?_ collected
    intro name named
    rw [inlineType, Option.mem_def.mp named] at resolved
    rwa [← Schema.name_of_type? (composite_eq_ok.mp resolved).1]
  | spread merged found resolved =>
    refine .spread selected admitted found ?_ collected
    rwa [← Schema.name_of_type? (composite_eq_ok.mp resolved).1]

/-- An offered field is collected, for any object of the type, if its directives admit it. -/
theorem Offers.collects {directives : List Directive} {head : FieldHead} {inner : List Selection}
    (offers : c.Offers parent selections directives head inner)
    (known : c.schema.type? parent.name = some parent) {object : String}
    (possible : object ∈ c.schema.possibleTypes parent.name)
    (admitted : directives.all (Directive.admits truth) = true) :
    c.Collects truth object selections head inner := by
  induction offers with
  | field selected => exact .field selected admitted
  | fragment selected fragment applies below ih =>
    rw [List.all_append, Bool.and_eq_true] at admitted
    exact fragment.collects selected admitted.1 (fragment.possible known applies possible) (ih admitted.2)

theorem Along.known {path : List String} {last : TypeDefinition} {inner : List Selection}
    (along : c.Along parent selections path last inner) (known : c.schema.type? parent.name = some parent) :
    c.schema.type? last.name = some last := by
  induction along with
  | here => exact known
  | inside offers looked hasFields onward ih =>
    have found := (type?_of_fieldType looked).2
    exact ih (by rwa [Schema.name_of_type? found])

/-- What the fields along a path have is merged by a server that leaves none of them out. -/
theorem Along.merges {path : List String} {last : TypeDefinition} {inner : List Selection}
    (along : c.Along parent selections path last inner) (known : c.schema.type? parent.name = some parent)
    {object : List String → String}
    (possible : ∀ above, above <+: path → ∀ type inner, c.Along parent selections above type inner →
      object above ∈ c.schema.possibleTypes type.name)
    (admitted : ∀ above name, above ++ [name] <+: path → ∀ directives,
      c.Guards parent selections above name directives → directives.all (Directive.admits truth) = true) :
    c.Merges truth object selections path inner := by
  induction along generalizing object with
  | here => exact .here
  | @inside parent selections directives head inner definition type path _ _ offers looked hasFields onward ih =>
    have collected : c.Collects truth (object []) selections head inner := by
      apply offers.collects known (possible [] List.nil_prefix _ _ .here)
      apply admitted [] head.responseName _ directives ⟨_, _, _, _, .here, offers, rfl⟩
      exact List.cons_prefix_cons.mpr ⟨rfl, List.nil_prefix⟩
    refine .inside collected (ih ?_ ?_ ?_)
    · have found := (type?_of_fieldType looked).2
      rwa [Schema.name_of_type? found]
    · intro above within other others along
      exact possible _ (List.cons_prefix_cons.mpr ⟨rfl, within⟩) _ _ (.inside offers looked hasFields along)
    · rintro above name within more ⟨_, _, _, _, along, guards⟩
      exact admitted (head.responseName :: above) name (List.cons_prefix_cons.mpr ⟨rfl, within⟩) more
        ⟨_, _, _, _, .inside offers looked hasFields along, guards⟩

end Returns

end Compiler

namespace ResponseField

inductive Trail : List ResponseField → List ResponseField → Prop
  | nil {fields} : Trail fields []
  | cons {fields field trail} (member : field ∈ fields) (onward : Trail field.fields trail) :
    Trail fields (field :: trail)

variable {fields trail : List ResponseField}

theorem Trail.steadyAt (leads : Trail fields trail) {path : List String} {key : String}
    (within : path ++ [key] <+: keys trail)
    (always : ∀ field ∈ trail[path.length]?, field.isConditional = false) : SteadyAt key path fields := by
  induction leads generalizing path with
  | nil => simp [keys] at within
  | @cons fields field trail member onward ih =>
    cases path with
    | nil =>
      obtain ⟨named, _⟩ := List.cons_prefix_cons.mp within
      exact ⟨field, member, named.symm, always field rfl⟩
    | cons name path =>
      obtain ⟨named, further⟩ := List.cons_prefix_cons.mp within
      exact ⟨field, member, named.symm, ih further always⟩

/-- Where response names are unique the field at the end of a path is the one that is meant. -/
theorem Trail.unconditional {above : List ResponseField} {field : ResponseField}
    (leads : Trail fields (above ++ [field])) (kind : FieldsWellKeyed fields)
    (steady : SteadyAt field.responseName (keys above) fields) : field.isConditional = false := by
  induction above generalizing fields with
  | nil =>
    cases leads with
    | cons member =>
      obtain ⟨other, listed, same, always⟩ := steady
      rwa [← eq_of_key_eq responseName kind.keys listed member same]
  | cons first above ih =>
    cases leads with
    | cons member onward =>
      obtain ⟨other, listed, same, below⟩ := steady
      cases eq_of_key_eq responseName kind.keys listed member same
      exact ih onward (wellKeyed_iff.mp (kind.each _ member)).1 below

end ResponseField

namespace Compiler

variable (c : Compiler) (root : TypeDefinition) (start : List Selection) (path : List String)

def Admissible (object : List String → String) : Prop :=
  ∀ above, above <+: path → ∀ type selections, c.Along root start above type selections →
    object above ∈ c.schema.possibleTypes type.name

def AdmittedBy (truth : Directive → Bool) : Prop :=
  ∀ above key, above ++ [key] <+: path → ∀ directives, c.Guards root start above key directives →
    directives.all (Directive.admits truth) = true

/-- No field on the path is selected both with and without directives that may leave it out. -/
def Even : Prop :=
  ∀ above key, above ++ [key] <+: path → ∀ directives others, c.Guards root start above key directives →
    c.Guards root start above key others → isConditional directives = isConditional others

end Compiler

/-- Every operation is compiled from one of the document, and its marks mean the following. A field is
    unconditional exactly if its key is selected once without a directive, in some selection set of
    those that are merged for its parent. If all fields on the way to it are unconditional as well,
    then a server returns it, whatever types the objects on the way have, under all truth values that
    leave no selection of the fields above it out, and under all truth values at all if none of the
    fields above it is selected both with and without directives. -/
theorem unconditional_returned {schema : Schema} {options : Options} {document : Document} {compiled : Compiled}
    (done : document.compile schema options = .ok compiled) {operation : CompiledOperation}
    (member : operation ∈ compiled.operations) :
    let c := document.compiler schema options.mergeSpreads
    ∃ source ∈ document.operations, ∃ root, source.name? = some operation.name ∧
      schema.root source.kind = .ok root ∧
      ∀ above field, Trail operation.fields (above ++ [field]) →
        let start := source.selectionSet.items
        (field.isConditional = false ↔ ∃ directives,
          c.Guards root start (keys above) field.responseName directives ∧ isConditional directives = false) ∧
        ((∀ each ∈ above ++ [field], each.isConditional = false) →
          ∀ object, c.Admissible root start (keys above) object →
            (∀ truth, c.AdmittedBy root start (keys above) truth →
              c.Returns truth object start (keys above) field.responseName) ∧
            (c.Even root start (keys above) →
              ∀ truth, c.Returns truth object start (keys above) field.responseName)) := by
  intro c
  obtain ⟨_, _, _, ofOperations, _⟩ := document.exists_leaves done
  obtain ⟨source, inDocument, root, s, compiles, _⟩ := ofOperations operation member
  refine ⟨source, inDocument, root, compiles.name, compiles.starts, ?_⟩
  intro above field leads start
  have known : c.schema.type? root.name = some root := (Schema.name_of_root compiles.starts).2
  have guarded (path : List String) (key : String) :
      SteadyAt key path operation.fields ↔
        ∃ directives, c.Guards root start path key directives ∧ isConditional directives = false := by
    rw [compiles.fields]
    exact compiles.run.steadyAt path key
  have last : keys above ++ [field.responseName] <+: keys (above ++ [field]) := by simp [keys]
  refine ⟨?_, ?_⟩
  · rw [← guarded]
    constructor
    · intro always
      exact leads.steadyAt last (by simpa [keys] using always)
    · exact leads.unconditional (Compiled.wellKeyed_operation done member)
  · intro always object fits
    have steady {path : List String} {key : String} (within : path ++ [key] <+: keys (above ++ [field])) :
        SteadyAt key path operation.fields :=
      leads.steadyAt within fun each found => always each (List.mem_of_getElem? found)
    have returned (truth : Directive → Bool) (admitted : c.AdmittedBy root start (keys above) truth) :
        c.Returns truth object start (keys above) field.responseName := by
      obtain ⟨directives, ⟨type, selections, head, inner, along, offers, named⟩, free⟩ :=
        (guarded _ _).mp (steady last)
      refine ⟨selections, head, inner, along.merges known fits admitted, ?_, named⟩
      exact offers.collects (along.known known) (fits _ (List.prefix_refl _) _ _ along)
        (admits_of_not_isConditional free truth)
    refine ⟨returned, ?_⟩
    intro even truth
    apply returned truth
    intro path key within directives guards
    -- what is marked as unconditional is selected once without directives, and so always
    have further := (within.trans (List.prefix_append _ _)).trans last
    obtain ⟨others, also, free⟩ := (guarded path key).mp (steady further)
    apply admits_of_not_isConditional
    rw [even path key within directives others guards also, free]

-- A field that is selected with a directive for one part and without for the other.
namespace Halved

def items : List SchemaItem :=
  [.type ⟨"Query", none, .object [] [⟨"a", none, [], .named "A"⟩, ⟨"d", none, [], .named "A"⟩]⟩,
    .type ⟨"A", none, .object [] [Overlap.int "b", Overlap.int "c"]⟩]

def schema : Schema := ⟨Schema.definitionsOf items, "Query", none, none⟩

def field (directives : List Directive) (name : String) (inner : List Selection) : Selection :=
  .field ⟨.start, none, name, [], directives⟩ default inner

def included : Directive := ⟨.start, "include", [⟨"if", .var "x"⟩]⟩

/-- `a @include(if: $x) { b } a { c } d { b } d { c }` -/
def selections : List Selection :=
  [field [included] "a" [field [] "b" []], field [] "a" [field [] "c" []],
    field [] "d" [field [] "b" []], field [] "d" [field [] "c" []]]

def node (name : String) : ResponseField :=
  ⟨name, name, .named "A", none, false, [Overlap.leaf "b", Overlap.leaf "c"], [], []⟩

def compiler : Compiler := ⟨schema, [], true⟩

def query : TypeDefinition :=
  ⟨"Query", none, .object [] [⟨"a", none, [], .named "A"⟩, ⟨"d", none, [], .named "A"⟩]⟩

theorem run : compiler.Run [] query false selections {} ⟨⟨[node "a", node "d"], []⟩, [], ["Int"]⟩ :=
  Compiler.collectAll_eq_ok_iff.mp rfl

def object : List String → String
  | [] => "Query"
  | _ => "A"

theorem offers_selections {directives : List Directive} {head : FieldHead} {inner : List Selection}
    (offers : compiler.Offers query selections directives head inner) :
    directives = head.directives ∧ (head.directives = [] ∨ head.responseName = "a" ∧ head.directives = [included]) ∧
      ∃ definition type, compiler.fieldType query head.name = .ok (definition, type) ∧ type.name = "A" := by
  rcases Compiler.offers_cons.mp offers with first | offers
  · obtain ⟨rfl, rfl, _⟩ := Compiler.offers_field.mp first
    exact ⟨rfl, .inr ⟨rfl, rfl⟩, _, _, rfl, rfl⟩
  rcases Compiler.offers_cons.mp offers with second | offers
  · obtain ⟨rfl, rfl, _⟩ := Compiler.offers_field.mp second
    exact ⟨rfl, .inl rfl, _, _, rfl, rfl⟩
  rcases Compiler.offers_cons.mp offers with third | fourth
  · obtain ⟨rfl, rfl, _⟩ := Compiler.offers_field.mp third
    exact ⟨rfl, .inl rfl, _, _, rfl, rfl⟩
  · obtain ⟨rfl, rfl, _⟩ := Compiler.offers_field.mp fourth
    exact ⟨rfl, .inl rfl, _, _, rfl, rfl⟩

theorem guards_root {path : List String} {key name : String} (within : path ++ [name] <+: [key])
    {directives : List Directive} (guards : compiler.Guards query selections path name directives) :
    name = key ∧ (directives = [] ∨ key = "a" ∧ directives = [included]) := by
  cases path with
  | nil =>
    obtain ⟨rfl, _⟩ := List.cons_prefix_cons.mp within
    obtain ⟨_, _, head, _, along, offers, named⟩ := guards
    cases along
    obtain ⟨rfl, either, _⟩ := offers_selections offers
    rw [named] at either
    exact ⟨rfl, either⟩
  | cons first path => simp [List.cons_prefix_cons] at within

theorem admissible (key : String) : compiler.Admissible query selections [key] object := by
  intro path within type inner along
  cases along with
  | here => decide
  | @inside _ _ directives head _ definition type path _ _ offers looked hasFields onward =>
    obtain ⟨_, rest⟩ := List.cons_prefix_cons.mp within
    cases List.prefix_nil.mp rest
    cases onward
    obtain ⟨_, _, _, _, also, named⟩ := offers_selections offers
    cases looked.symm.trans also
    rw [named]
    change "A" ∈ compiler.schema.possibleTypes "A"
    decide

/-- Only `c` is selected in what is left of `a` if the directive leaves the first half out. -/
theorem not_returns : ¬compiler.Returns (fun _ => false) object selections ["a"] "b" := by
  rintro ⟨merged, head, inner, merges, collected, named⟩
  generalize path : ["a"] = keys at merges
  cases merges with
  | here => cases path
  | inside above onward =>
    obtain ⟨isA, rfl⟩ := List.cons.inj path
    cases onward
    have left : merged = [field [] "c" []] := by
      cases above with
      | field selected admitted =>
        simp only [selections, field, List.mem_cons, List.not_mem_nil, or_false, Selection.field.injEq] at selected
        rcases selected with ⟨rfl, _, rfl⟩ | ⟨rfl, _, rfl⟩ | ⟨rfl, _⟩ | ⟨rfl, _⟩
        · cases admitted
        · rfl
        · exact absurd isA (by decide)
        · exact absurd isA (by decide)
      | inline selected => simp [selections, field] at selected
      | spread selected => simp [selections, field] at selected
    subst left
    cases collected with
    | field selected =>
      simp only [field, List.mem_singleton, Selection.field.injEq] at selected
      obtain ⟨rfl, _⟩ := selected
      exact absurd named (by decide)
    | inline selected => simp [field] at selected
    | spread selected => simp [field] at selected

end Halved

/-- All fields are unconditional. A server returns `a.b` if the directive lets the first half of `a` in,
    but not if it leaves it out, and it returns `d.c` in any case. -/
theorem unconditional_returned_halved :
    ∃ compiled operation, (Document.ofQuery Halved.selections).compile Halved.schema {} = .ok compiled ∧
      operation ∈ compiled.operations ∧ operation.fields = [Halved.node "a", Halved.node "d"] ∧
      ¬Halved.compiler.Returns (fun _ => false) Halved.object Halved.selections ["a"] "b" ∧
      Halved.compiler.Returns (fun _ => true) Halved.object Halved.selections ["a"] "b" ∧
      ∀ truth, Halved.compiler.Returns truth Halved.object Halved.selections ["d"] "c" := by
  obtain ⟨compiled, operation, done, member, fields⟩ := Document.compile_ofQuery rfl Halved.run rfl rfl
  obtain ⟨source, inDocument, root, _, isRoot, meaning⟩ := unconditional_returned done member
  cases List.mem_singleton.mp inDocument
  cases isRoot
  have trail (name : String) (leaf : String) (listed : name = "a" ∨ name = "d") (below : leaf = "b" ∨ leaf = "c") :
      Trail operation.fields ([Halved.node name] ++ [Overlap.leaf leaf]) := by
    rw [fields]
    refine .cons ?_ (.cons ?_ .nil)
    · rcases listed with rfl | rfl <;> simp
    · rcases below with rfl | rfl <;> simp [Halved.node]
  refine ⟨compiled, operation, done, member, fields, Halved.not_returns, ?_, ?_⟩
  · have ofA := (meaning _ _ (trail "a" "b" (.inl rfl) (.inl rfl))).2 (by simp [Halved.node, Overlap.leaf])
    apply (ofA Halved.object (Halved.admissible "a")).1
    intro path key within directives guards
    rcases (Halved.guards_root within guards).2 with rfl | ⟨_, rfl⟩ <;> rfl
  · have ofD := (meaning _ _ (trail "d" "c" (.inr rfl) (.inr rfl))).2 (by simp [Halved.node, Overlap.leaf])
    apply (ofD Halved.object (Halved.admissible "d")).2
    intro path key within directives others guards also
    rcases (Halved.guards_root within guards).2 with rfl | ⟨named, _⟩
    · rcases (Halved.guards_root within also).2 with rfl | ⟨named, _⟩
      · rfl
      · exact absurd named (by decide)
    · exact absurd named (by decide)

end QueryTypes
