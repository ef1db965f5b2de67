import QueryTypes.Compiled
import QueryTypes.Proofs.Crossings
import QueryTypes.Validation

namespace QueryTypes

open ResponseField

def Admitted (schema : Schema) (type : String) (trail : List Crossing) : Prop :=
  ∀ crossing ∈ trail, type ∈ schema.possibleTypes crossing.condition.name

/-- The branch opened last on a way was open before. -/
def Reopens (trail : List Crossing) : Prop :=
  ∃ outer condition, opened trail = outer ++ [condition] ∧ condition ∈ outer

def innermost : List Crossing → List Crossing
  | [] => []
  | crossing :: trail => if trail.any Crossing.opens then innermost trail else crossing :: trail

theorem mem_opened {trail : List Crossing} {condition : String} :
    condition ∈ opened trail ↔
      ∃ crossing ∈ trail, crossing.opens = true ∧ crossing.condition.name = condition := by
  simp [opened, and_assoc]

theorem opened_eq_nil {trail : List Crossing} : opened trail = [] ↔ trail.any Crossing.opens = false := by
  simp [opened]

theorem Admitted.of_opened {schema : Schema} {type : String} {trail : List Crossing}
    (admitted : Admitted schema type trail) :
    ∀ condition ∈ opened trail, type ∈ schema.possibleTypes condition := by
  intro condition member
  obtain ⟨crossing, onTrail, _, rfl⟩ := mem_opened.mp member
  exact admitted crossing onTrail

theorem mem_getLast?_of_length_le_one {names : List String} (short : names.length ≤ 1) {name : String}
    (member : name ∈ names) : name ∈ names.getLast? := by
  cases names with
  | nil => cases member
  | cons first rest =>
    have empty : rest = [] := List.eq_nil_of_length_eq_zero (by simp only [List.length_cons] at short; omega)
    subst empty
    rw [List.mem_singleton.mp member]
    rfl

/-- A way on which no branch is open twice in the end leaves its fields somewhere. -/
theorem filedUnder_of_not_reopens {trail : List Crossing} (once : ¬Reopens trail) :
    ∃ place, FiledUnder (opened trail) place ∧ ∀ condition ∈ place, condition ∈ opened trail := by
  rcases List.eq_nil_or_concat (opened trail) with empty | ⟨outer, condition, split⟩
  · exact ⟨none, empty, by simp⟩
  · rw [List.concat_eq_append] at split
    refine ⟨some condition, ⟨outer, split, ?_⟩, by simp [split]⟩
    intro member
    exact once ⟨outer, condition, split, member⟩

namespace Compiler

/-- The keys that a server gives for selections on an object of a type, whatever directives say. It
    goes into a fragment exactly if the type is possible for its condition or there is none. -/
inductive Yields (c : Compiler) (type : String) : List Selection → String → Prop
  | field {selections key} (selected : key ∈ selections.filterMap Selection.key?) :
    Yields c type selections key
  | inline {selections head span inner key} (selected : .inline head span inner ∈ selections)
    (applies : ∀ condition ∈ head.condition, type ∈ c.schema.possibleTypes condition)
    (below : Yields c type inner key) : Yields c type selections key
  | spread {selections spread fragment key} (selected : .spread spread ∈ selections)
    (found : c.fragment? spread.name = some fragment)
    (applies : type ∈ c.schema.possibleTypes fragment.condition)
    (below : Yields c type fragment.selectionSet.items key) : Yields c type selections key

variable {c : Compiler} {parent : TypeDefinition}

/-- A fragment that opens no branch applies to all objects of the type it stands in. -/
theorem FragmentOn.possible {selection : Selection} {condition : TypeDefinition}
    {inner : List Selection} (fragment : c.FragmentOn parent selection condition inner)
    (known : c.schema.type? parent.name = some parent) (applies : c.opens parent condition = false)
    {type : String} (possible : type ∈ c.schema.possibleTypes parent.name) :
    type ∈ c.schema.possibleTypes condition.name := by
  have above : c.schema.isSupertype condition parent = true := by simpa [opens] using applies
  exact Schema.possible_of_isSupertype (fragment.known known) known above possible

theorem possible_insideOf {condition : TypeDefinition} {type : String}
    (possible : type ∈ c.schema.possibleTypes parent.name)
    (admitted : type ∈ c.schema.possibleTypes condition.name) :
    type ∈ c.schema.possibleTypes (c.insideOf parent condition).name := by
  unfold insideOf
  split
  · exact admitted
  · exact possible

/-- If the branches opened on a way admit a type, so do all fragments on it. -/
theorem Reaches.admitted {selections inner : List Selection} {trail : List Crossing}
    (reached : c.Reaches parent selections trail inner)
    (known : c.schema.type? parent.name = some parent) {type : String}
    (possible : type ∈ c.schema.possibleTypes parent.name)
    (admits : ∀ condition ∈ opened trail, type ∈ c.schema.possibleTypes condition) :
    Admitted c.schema type trail := by
  induction reached with
  | here => exact nofun
  | @through parent _ _ condition _ trail _ selected fragment onward ih =>
    have first : type ∈ c.schema.possibleTypes condition.name := by
      cases opened : c.opens parent condition with
      | false => exact fragment.possible known opened possible
      | true => exact admits _ (mem_opened.mpr ⟨_, List.mem_cons_self, opened, rfl⟩)
    have rest : ∀ condition ∈ opened trail, type ∈ c.schema.possibleTypes condition := by
      intro other member
      obtain ⟨crossing, onTrail, opens, named⟩ := mem_opened.mp member
      exact admits other (mem_opened.mpr ⟨crossing, List.mem_cons_of_mem _ onTrail, opens, named⟩)
    intro crossing member
    rcases List.mem_cons.mp member with rfl | member
    · exact first
    · exact ih (fragment.knownInside known) (possible_insideOf possible first) rest crossing member

/-- If the last branch opened on a way admits a type, so do the fragments from there on. -/
theorem Reaches.admitted_innermost {selections inner : List Selection} {trail : List Crossing}
    (reached : c.Reaches parent selections trail inner)
    (known : c.schema.type? parent.name = some parent) {type : String}
    (possible : opened trail = [] → type ∈ c.schema.possibleTypes parent.name)
    (admits : ∀ condition ∈ (opened trail).getLast?, type ∈ c.schema.possibleTypes condition) :
    Admitted c.schema type (innermost trail) := by
  induction reached with
  | here => exact nofun
  | @through parent _ _ condition _ trail _ selected fragment onward ih =>
    unfold innermost
    cases further : trail.any Crossing.opens with
    | true =>
      have nonempty : opened trail ≠ [] := fun empty => by simp [opened_eq_nil.mp empty] at further
      rw [if_pos rfl]
      apply ih (fragment.knownInside known) (fun empty => absurd empty nonempty)
      intro last isLast
      apply admits last
      rw [opened_cons]
      split
      · rw [List.getLast?_cons_of_ne_nil nonempty]
        exact isLast
      · exact isLast
    | false =>
      have empty : opened trail = [] := opened_eq_nil.mpr further
      -- only the first fragment may open a branch, the others merge into it or into the parent
      have start : type ∈ c.schema.possibleTypes condition.name ∧
          type ∈ c.schema.possibleTypes (c.insideOf parent condition).name := by
        cases opens : c.opens parent condition with
        | false =>
          have inParent := possible (by simp [opened_cons, opens, empty])
          have inCondition := fragment.possible known opens inParent
          exact ⟨inCondition, possible_insideOf inParent inCondition⟩
        | true =>
          have inCondition := admits condition.name (by simp [opened_cons, opens, empty])
          simpa [insideOf, opens] using inCondition
      rw [if_neg (by simp)]
      intro crossing member
      rcases List.mem_cons.mp member with rfl | member
      · exact start.1
      · exact onward.admitted (fragment.knownInside known) start.2 (by simp [empty]) crossing member

/-- Where a way leads on which all fragments apply, the keys are given. -/
theorem Reaches.yields {selections inner : List Selection} {trail : List Crossing}
    (reached : c.Reaches parent selections trail inner) {type key : String}
    (admitted : Admitted c.schema type trail) (member : key ∈ inner.filterMap Selection.key?) :
    c.Yields type selections key := by
  induction reached with
  | here => exact .field member
  | through selected fragment onward ih =>
    have applies := admitted _ List.mem_cons_self
    have below := ih (fun crossing onTrail => admitted crossing (List.mem_cons_of_mem _ onTrail))
      member
    cases fragment with
    | inline resolved =>
      refine .inline selected ?_ below
      intro name written
      rw [inlineType, Option.mem_def.mp written] at resolved
      rwa [Schema.name_of_type? (composite_eq_ok.mp resolved).1] at applies
    | spread _ found resolved =>
      refine .spread selected found ?_ below
      rwa [Schema.name_of_type? (composite_eq_ok.mp resolved).1] at applies

theorem Run.inside (merged : c.mergeSpreads = true) {stack : List String} {conditional : Bool}
    {selections : List Selection} {s s' : Collection}
    (run : c.Run stack parent conditional selections s s') {selection : Selection}
    (selected : selection ∈ selections) (noField : selection.key? = none) :
    ∃ condition inner, c.FragmentOn parent selection condition inner ∧
      ∃ stack conditional s s',
        c.Run stack (c.insideOf parent condition) conditional inner s s' := by
  induction run with
  | nil => cases selected
  | leaf looked simple after ih =>
    rcases List.mem_cons.mp selected with rfl | selected
    · cases noField
    · exact ih selected
  | composite looked hasFields inside after _ ih =>
    rcases List.mem_cons.mp selected with rfl | selected
    · cases noField
    · exact ih selected
  | merge fragment fresh applies inside after _ ih =>
    rcases List.mem_cons.mp selected with rfl | selected
    · exact ⟨_, _, fragment, _, _, _, _, by simpa [insideOf, applies] using inside⟩
    · exact ih selected
  | branch fragment fresh opens inside after _ ih =>
    rcases List.mem_cons.mp selected with rfl | selected
    · exact ⟨_, _, fragment, _, _, _, _, by simpa [insideOf, opens] using inside⟩
    · exact ih selected
  | mention unmerged => simp [merged] at unmerged

/-- Selections that have been collected have a way to every key that they give for a type, on which
    all fragments apply to the type. -/
theorem Yields.reaches (merged : c.mergeSpreads = true) {selections : List Selection}
    {type key : String} (yields : c.Yields type selections key) {stack : List String}
    {conditional : Bool} {s s' : Collection}
    (run : c.Run stack parent conditional selections s s')
    (possible : type ∈ c.schema.possibleTypes parent.name) :
    ∃ trail inner, c.Reaches parent selections trail inner ∧ Admitted c.schema type trail ∧
      key ∈ inner.filterMap Selection.key? := by
  induction yields generalizing parent stack conditional s s' with
  | field selected => exact ⟨[], _, .here, nofun, selected⟩
  | @inline _ head _ _ _ selected applies below ih =>
    obtain ⟨condition, inner, fragment, _, _, _, _, inside⟩ := run.inside merged selected rfl
    cases fragment with
    | inline resolved =>
      have admitted : type ∈ c.schema.possibleTypes condition.name := by
        unfold inlineType at resolved
        split at resolved
        · rename_i name written
          rw [Schema.name_of_type? (composite_eq_ok.mp resolved).1]
          exact applies name written
        · cases resolved
          exact possible
      obtain ⟨trail, place, onward, rest, member⟩ := ih inside (possible_insideOf possible admitted)
      exact ⟨_, place, .through selected (.inline resolved) onward,
        List.forall_mem_cons.mpr ⟨admitted, rest⟩, member⟩
  | spread selected found applies below ih =>
    obtain ⟨condition, inner, fragment, _, _, _, _, inside⟩ := run.inside merged selected rfl
    cases fragment with
    | spread merged also resolved =>
      cases found.symm.trans also
      have admitted : type ∈ c.schema.possibleTypes condition.name := by
        rwa [Schema.name_of_type? (composite_eq_ok.mp resolved).1]
      obtain ⟨trail, place, onward, rest, member⟩ := ih inside (possible_insideOf possible admitted)
      exact ⟨_, place, .through selected (.spread merged found resolved) onward,
        List.forall_mem_cons.mpr ⟨admitted, rest⟩, member⟩

theorem KeepsFor.of_reaches {selections inner : List Selection} {trail : List Crossing}
    {type key : String} (reached : c.Reaches parent selections trail inner)
    (admitted : Admitted c.schema type trail) (once : ¬Reopens trail)
    (member : key ∈ inner.filterMap Selection.key?) : c.KeepsFor parent selections type key := by
  obtain ⟨place, filed, wasOpened⟩ := filedUnder_of_not_reopens once
  refine ⟨place, ⟨trail, inner, reached, member, filed⟩, ?_⟩
  intro condition isPlace
  exact admitted.of_opened condition (wasOpened condition isPlace)

/-- A key that is kept for a type stands on a way whose last branch admits the type. -/
theorem KeepsFor.reaches {selections : List Selection} {type key : String}
    (keeps : c.KeepsFor parent selections type key) :
    ∃ trail inner, c.Reaches parent selections trail inner ∧
      key ∈ inner.filterMap Selection.key? ∧
      ∀ condition ∈ (opened trail).getLast?, type ∈ c.schema.possibleTypes condition := by
  obtain ⟨place, ⟨trail, inner, reached, member, filed⟩, admits⟩ := keeps
  refine ⟨trail, inner, reached, member, ?_⟩
  intro condition isLast
  cases place with
  | none =>
    have empty : opened trail = [] := filed
    simp [empty] at isLast
  | some last =>
    obtain ⟨outer, split, _⟩ := filed
    have same : last = condition := by simpa [split] using isLast
    exact same ▸ admits last rfl

end Compiler

-- Two interfaces `A` and `B` that share the object type `T`, and `U` that is an `A` only.
namespace Overlap

def int (name : String) : FieldDefinition := ⟨name, none, [], .named "Int"⟩

def interfaceA : TypeDefinition := ⟨"A", none, .interface [int "x"]⟩

def query : TypeDefinition := ⟨"Query", none, .object [] [⟨"n", none, [], .named "A"⟩]⟩

def items : List SchemaItem :=
  [.type ⟨"Query", none, .object [] [⟨"n", none, [], .named "A"⟩]⟩,
    .type interfaceA,
    .type ⟨"B", none, .interface [int "y", int "z"]⟩,
    .type ⟨"T", none, .object ["A", "B"] [int "x", int "y", int "z"]⟩,
    .type ⟨"U", none, .object ["A"] [int "x"]⟩]

def schema : Schema := ⟨Schema.definitionsOf items, "Query", none, none⟩

def field (name : String) (inner : List Selection) : Selection :=
  .field ⟨.start, none, name, [], []⟩ default inner

def inline (condition : String) (inner : List Selection) : Selection :=
  .inline ⟨.start, some condition, []⟩ default inner

/-- `query Q { n { ... } }` with the given selections on `A`. -/
def document (selections : List Selection) : Document :=
  ⟨[.operation ⟨.start, some ⟨.query, some "Q", [], []⟩, ⟨default, [field "n" selections]⟩⟩]⟩

def leaf (name : String) : ResponseField := ⟨name, name, .named "Int", none, false, [], [], []⟩

theorem built : Schema.ofItems items = .ok schema := rfl

theorem unionsOfObjects : schema.UnionsOfObjects := by decide

/-- `... on B { y ... on A { x ... on B { z } } }` -/
def reopening : List Selection :=
  [inline "B" [field "y" [], inline "A" [field "x" [], inline "B" [field "z" []]]]]

def reopeningShape : Shape :=
  ⟨[], [], [⟨"B", ["T"], [leaf "y", leaf "x"], []⟩, ⟨"A", ["U"], [leaf "x"], []⟩], ["Int"]⟩

theorem reopening_compiled : ((document reopening).compiler schema true).shape [] interfaceA reopening =
    .ok reopeningShape := rfl

/-- `... on B { ... on A { x } }` -/
def widening : List Selection := [inline "B" [inline "A" [field "x" []]]]

def wideningShape : Shape :=
  ⟨[], [], [⟨"B", ["T"], [leaf "x"], []⟩, ⟨"A", ["U"], [leaf "x"], []⟩], ["Int"]⟩

theorem widening_compiled : ((document widening).compiler schema true).shape [] interfaceA widening =
    .ok wideningShape := rfl

/-- `x ... on B { y }` -/
def flat : List Selection := [field "x" [], inline "B" [field "y" []]]

def flatShape : Shape := ⟨[leaf "x"], [], [⟨"B", ["T"], [leaf "x", leaf "y"], []⟩], ["Int"]⟩

theorem flat_compiled : ((document flat).compiler schema true).shape [] interfaceA flat =
    .ok flatShape := rfl

theorem flat_single (document : Document) (trail : List Crossing) (inner : List Selection)
    (reached : (document.compiler schema true).Reaches interfaceA flat trail inner) :
    (opened trail).length ≤ 1 := by
  cases reached with
  | here => simp
  | through selected fragment onward =>
    simp only [flat, List.mem_cons, List.not_mem_nil, or_false] at selected
    rcases selected with rfl | rfl
    · cases fragment
    · cases fragment
      cases onward with
      | here => rw [opened_cons]; split <;> simp
      | through selected fragment onward =>
        rw [List.mem_singleton.mp selected] at fragment
        cases fragment

end Overlap

/-- No key that a server gives for an object type is missing among the fields declared for the type
    exactly if every key inside a branch that is opened again inside itself, under conditions that
    all admit the type, is also kept elsewhere for the type. -/
theorem yielded_keys_declared_iff {items : List SchemaItem} {schema : Schema}
    (built : Schema.ofItems items = .ok schema) (members : schema.UnionsOfObjects)
    (document : Document) {stack : List String} {parent : TypeDefinition}
    {selections : List Selection} {shape : Shape}
    (compiled : (document.compiler schema true).shape stack parent selections = .ok shape) :
    (∀ type ∈ schema.possibleTypes parent.name, ∀ key,
      (document.compiler schema true).Yields type selections key → key ∈ keys (shape.fieldsOf type)) ↔
    ∀ type ∈ schema.possibleTypes parent.name, ∀ trail inner,
      (document.compiler schema true).Reaches parent selections trail inner →
      Admitted schema type trail → Reopens trail → ∀ key ∈ inner.filterMap Selection.key?,
        (document.compiler schema true).KeepsFor parent selections type key := by
  have declared {type : String} (possible : type ∈ schema.possibleTypes parent.name) (key : String) :=
    Compiler.mem_keys_fieldsOf_iff (Schema.distinct_of_ofItems built) members compiled possible key
  obtain ⟨s, run, _⟩ := Compiler.shape_eq_ok_iff.mp compiled
  constructor
  · intro complete type possible trail inner reached admitted _ key member
    exact (declared possible key).mp (complete type possible key (reached.yields admitted member))
  · intro elsewhere type possible key yields
    obtain ⟨trail, inner, reached, admitted, member⟩ := yields.reaches rfl run possible
    rw [declared possible]
    by_cases again : Reopens trail
    · exact elsewhere type possible trail inner reached admitted again key member
    · exact .of_reaches reached admitted again member

/-- The key of the inner `... on B` is given for `T` and not declared. -/
theorem reopened_branch_key_lost :
    (Overlap.document Overlap.reopening).validate Overlap.schema false = .ok () ∧
    ((Overlap.document Overlap.reopening).compiler Overlap.schema true).Yields "T"
      Overlap.reopening "z" ∧
    "z" ∉ keys (Overlap.reopeningShape.fieldsOf "T") ∧
    ¬∀ type ∈ Overlap.schema.possibleTypes "A", ∀ trail inner,
      ((Overlap.document Overlap.reopening).compiler Overlap.schema true).Reaches
        Overlap.interfaceA Overlap.reopening trail inner →
      Admitted Overlap.schema type trail → Reopens trail → ∀ key ∈ inner.filterMap Selection.key?,
        ((Overlap.document Overlap.reopening).compiler Overlap.schema true).KeepsFor
          Overlap.interfaceA Overlap.reopening type key := by
  have yields : ((Overlap.document Overlap.reopening).compiler Overlap.schema true).Yields "T"
      Overlap.reopening "z" := by
    refine .inline List.mem_cons_self (by rintro _ ⟨⟩; decide) ?_
    refine .inline (List.mem_cons_of_mem _ List.mem_cons_self) (by rintro _ ⟨⟩; decide) ?_
    refine .inline (List.mem_cons_of_mem _ List.mem_cons_self) (by rintro _ ⟨⟩; decide) ?_
    exact .field (by decide)
  have lost : "z" ∉ keys (Overlap.reopeningShape.fieldsOf "T") := by decide
  refine ⟨rfl, yields, lost, ?_⟩
  intro elsewhere
  have declared := (yielded_keys_declared_iff Overlap.built Overlap.unionsOfObjects
    (Overlap.document Overlap.reopening) Overlap.reopening_compiled).mpr elsewhere
  exact lost (declared "T" (by decide) "z" yields)

/-- Every key declared for an object type is selected under conditions which, from the last branch
    opened on the way there, all admit the type. -/
theorem declared_key_selected {items : List SchemaItem} {schema : Schema}
    (built : Schema.ofItems items = .ok schema) (members : schema.UnionsOfObjects)
    (document : Document) {stack : List String} {parent : TypeDefinition}
    (known : schema.type? parent.name = some parent) {selections : List Selection} {shape : Shape}
    (compiled : (document.compiler schema true).shape stack parent selections = .ok shape)
    {type : String} (possible : type ∈ schema.possibleTypes parent.name) {key : String}
    (declared : key ∈ keys (shape.fieldsOf type)) :
    ∃ trail inner, (document.compiler schema true).Reaches parent selections trail inner ∧
      key ∈ inner.filterMap Selection.key? ∧ Admitted schema type (innermost trail) := by
  have keeps := (Compiler.mem_keys_fieldsOf_iff (Schema.distinct_of_ofItems built) members
    compiled possible key).mp declared
  obtain ⟨trail, inner, reached, member, admits⟩ := keeps.reaches
  exact ⟨trail, inner, reached, member,
    reached.admitted_innermost known (fun _ => possible) admits⟩

/-- The key `x`, selected for what is a `B` and an `A`, is declared for `U`, which is no `B`. -/
theorem declared_key_not_yielded :
    (Overlap.document Overlap.widening).validate Overlap.schema false = .ok () ∧
    ((Overlap.document Overlap.widening).compiler Overlap.schema true).shape [] Overlap.interfaceA
      Overlap.widening = .ok Overlap.wideningShape ∧
    "U" ∈ Overlap.schema.possibleTypes "A" ∧ "x" ∈ keys (Overlap.wideningShape.fieldsOf "U") ∧
    ¬((Overlap.document Overlap.widening).compiler Overlap.schema true).Yields "U"
      Overlap.widening "x" := by
  refine ⟨rfl, rfl, by decide, by decide, ?_⟩
  intro yields
  cases yields with
  | field selected => exact absurd selected (by decide)
  | inline selected applies below =>
    cases List.mem_singleton.mp selected
    exact absurd (applies "B" rfl) (by decide)
  | spread selected => cases List.mem_singleton.mp selected

theorem declared_key_selected_widening :
    ∃ trail inner, ((Overlap.document Overlap.widening).compiler Overlap.schema true).Reaches
        Overlap.interfaceA Overlap.widening trail inner ∧
      "x" ∈ inner.filterMap Selection.key? ∧ Admitted Overlap.schema "U" (innermost trail) :=
  declared_key_selected Overlap.built Overlap.unionsOfObjects (Overlap.document Overlap.widening)
    rfl Overlap.widening_compiled (by decide) (by decide)

/-- If no branch is opened inside another one, the keys declared for an object type are those that a
    server gives for it, and only one case lists the type. -/
theorem declared_keys_exact {items : List SchemaItem} {schema : Schema}
    (built : Schema.ofItems items = .ok schema) (members : schema.UnionsOfObjects)
    (document : Document) {stack : List String} {parent : TypeDefinition}
    (known : schema.type? parent.name = some parent) {selections : List Selection} {shape : Shape}
    (compiled : (document.compiler schema true).shape stack parent selections = .ok shape)
    (single : ∀ trail inner, (document.compiler schema true).Reaches parent selections trail inner →
      (opened trail).length ≤ 1)
    {type : String} (possible : type ∈ schema.possibleTypes parent.name) :
    (∀ left ∈ shape.cases, ∀ right ∈ shape.cases, type ∈ left.possibleTypes →
      type ∈ right.possibleTypes → left = right) ∧
    ∀ key, key ∈ keys (shape.fieldsOf type) ↔
      (document.compiler schema true).Yields type selections key := by
  obtain ⟨s, run, finished⟩ := Compiler.shape_eq_ok_iff.mp compiled
  refine ⟨?_, fun key => ?_⟩
  · intro left inLeft right inRight listedLeft listedRight
    rw [finished] at inLeft inRight
    exact Compiler.finish_listed_once inLeft inRight listedLeft listedRight
  · rw [Compiler.mem_keys_fieldsOf_iff (Schema.distinct_of_ofItems built) members compiled
      possible key]
    constructor
    · intro keeps
      obtain ⟨trail, inner, reached, member, admits⟩ := keeps.reaches
      have all : ∀ condition ∈ opened trail, type ∈ schema.possibleTypes condition := by
        intro condition isOpened
        exact admits condition (mem_getLast?_of_length_le_one (single trail inner reached) isOpened)
      exact reached.yields (reached.admitted known possible all) member
    · intro yields
      obtain ⟨trail, inner, reached, admitted, member⟩ := yields.reaches rfl run possible
      refine .of_reaches reached admitted ?_ member
      rintro ⟨outer, condition, split, again⟩
      have short := single trail inner reached
      rw [split, List.length_append] at short
      have some := List.length_pos_of_mem again
      simp only [List.length_singleton] at short
      omega

theorem declared_keys_exact_flat :
    "T" ∈ Overlap.schema.possibleTypes "A" ∧ keys (Overlap.flatShape.fieldsOf "T") = ["x", "y"] ∧
    ∀ key, key ∈ keys (Overlap.flatShape.fieldsOf "T") ↔
      ((Overlap.document Overlap.flat).compiler Overlap.schema true).Yields "T" Overlap.flat key := by
  have possible : "T" ∈ Overlap.schema.possibleTypes "A" := by decide
  have exact := declared_keys_exact Overlap.built Overlap.unionsOfObjects
    (Overlap.document Overlap.flat) rfl Overlap.flat_compiled (Overlap.flat_single _) possible
  exact ⟨possible, by decide, exact.2⟩

end QueryTypes
