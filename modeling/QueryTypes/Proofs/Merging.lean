import QueryTypes.Proofs.ShapeKeys

namespace QueryTypes

section MergeBy

variable {α : Type} (key : α → String) (absorb : α → α → α)

/-- Takes up elements one after the other: the element that has its key absorbs it, and if there is
    none it comes to the end. -/
def mergeBy (xs ys : List α) : List α :=
  ys.foldl (fun done y => upsert (key · == key y) (absorb · y) y done) xs

variable {key absorb}

@[simp] theorem mergeBy_nil (xs : List α) : mergeBy key absorb xs [] = xs := rfl

theorem mergeBy_cons (xs : List α) (y : α) (ys : List α) :
    mergeBy key absorb xs (y :: ys) = mergeBy key absorb (mergeBy key absorb xs [y]) ys := rfl

theorem mergeBy_single_of_eq {x y : α} (xs : List α) (same : key x = key y) :
    mergeBy key absorb (x :: xs) [y] = absorb x y :: xs := by
  simp [mergeBy, upsert, same]

theorem mergeBy_single_of_ne {x y : α} (xs : List α) (differ : key x ≠ key y) :
    mergeBy key absorb (x :: xs) [y] = x :: mergeBy key absorb xs [y] := by
  simp [mergeBy, upsert, differ]

theorem map_mergeBy (kept : ∀ x y, key (absorb x y) = key x) (xs ys : List α) :
    (mergeBy key absorb xs ys).map key = insertAll (xs.map key) (ys.map key) := by
  induction ys generalizing xs with
  | nil => rfl
  | cons y ys ih =>
    have first : (mergeBy key absorb xs [y]).map key = insertNew (xs.map key) (key y) :=
      ResponseField.map_upsert key (key y) _ y xs (fun x => kept x y) rfl
    rw [mergeBy_cons, ih, first]
    rfl

theorem forall_mem_mergeBy_single {holds : α → Prop} {xs : List α} {y : α}
    (before : ∀ x ∈ xs, holds x) (added : holds y)
    (absorbed : ∀ x ∈ xs, key x = key y → holds (absorb x y)) :
    ∀ z ∈ mergeBy key absorb xs [y], holds z := by
  induction xs with
  | nil => simpa [mergeBy, upsert] using added
  | cons x xs ih =>
    rw [List.forall_mem_cons] at before absorbed
    by_cases same : key x = key y
    · rw [mergeBy_single_of_eq xs same]
      exact List.forall_mem_cons.mpr ⟨absorbed.1 same, before.2⟩
    · rw [mergeBy_single_of_ne xs same]
      exact List.forall_mem_cons.mpr ⟨before.1, ih before.2 absorbed.2⟩

/-- What holds of all elements, and of an element that absorbs one of the new ones, holds after
    merging. -/
theorem forall_mem_mergeBy {holds : α → Prop} {xs ys : List α} (before : ∀ x ∈ xs, holds x)
    (added : ∀ y ∈ ys, holds y)
    (absorbed : ∀ y ∈ ys, ∀ x, key x = key y → holds x → holds (absorb x y)) :
    ∀ z ∈ mergeBy key absorb xs ys, holds z := by
  induction ys generalizing xs with
  | nil => exact before
  | cons y ys ih =>
    rw [List.forall_mem_cons] at added absorbed
    have first : ∀ z ∈ mergeBy key absorb xs [y], holds z :=
      forall_mem_mergeBy_single before added.1
        fun x member same => absorbed.1 x same (before x member)
    rw [mergeBy_cons]
    exact ih first added.2 absorbed.2

theorem mergeBy_single_of_fresh {xs : List α} {y : α} (fresh : key y ∉ xs.map key) :
    mergeBy key absorb xs [y] = xs ++ [y] := by
  induction xs with
  | nil => rfl
  | cons x xs ih =>
    rw [List.map_cons, List.mem_cons, not_or] at fresh
    rw [mergeBy_single_of_ne xs (Ne.symm fresh.1), ih fresh.2]
    rfl

/-- Elements with keys of their own are put behind the others. -/
theorem mergeBy_eq_append {xs ys : List α} (unique : (ys.map key).Nodup)
    (apart : ∀ y ∈ ys, key y ∉ xs.map key) : mergeBy key absorb xs ys = xs ++ ys := by
  induction ys generalizing xs with
  | nil => simp
  | cons y ys ih =>
    obtain ⟨fresh, unique⟩ := List.nodup_cons.mp unique
    rw [List.forall_mem_cons] at apart
    have later : ∀ z ∈ ys, key z ∉ (xs ++ [y]).map key := by
      intro z member
      have other : key z ≠ key y := fun same => fresh (same ▸ List.mem_map_of_mem member)
      simpa [other] using apart.2 z member
    rw [mergeBy_cons, mergeBy_single_of_fresh apart.1, ih unique later]
    simp

theorem nil_mergeBy {ys : List α} (unique : (ys.map key).Nodup) : mergeBy key absorb [] ys = ys :=
  mergeBy_eq_append unique (by simp)

theorem mergeBy_single_eq_self {xs : List α} {y : α} (present : key y ∈ xs.map key)
    (unchanged : ∀ x ∈ xs, key x = key y → absorb x y = x) :
    mergeBy key absorb xs [y] = xs := by
  induction xs with
  | nil => cases present
  | cons x xs ih =>
    rw [List.forall_mem_cons] at unchanged
    by_cases same : key x = key y
    · rw [mergeBy_single_of_eq xs same, unchanged.1 same]
    · have later : key y ∈ xs.map key := (List.mem_cons.mp present).resolve_left (Ne.symm same)
      rw [mergeBy_single_of_ne xs same, ih later unchanged.2]

/-- Elements that change none of those with their keys change nothing. -/
theorem mergeBy_eq_self {xs ys : List α} (present : ∀ y ∈ ys, key y ∈ xs.map key)
    (unchanged : ∀ y ∈ ys, ∀ x ∈ xs, key x = key y → absorb x y = x) :
    mergeBy key absorb xs ys = xs := by
  induction ys with
  | nil => rfl
  | cons y ys ih =>
    rw [List.forall_mem_cons] at present unchanged
    rw [mergeBy_cons, mergeBy_single_eq_self present.1 unchanged.1,
      ih present.2 unchanged.2]

section Associative

variable (kept : ∀ x y, key (absorb x y) = key x)

include kept

/-- Two elements with different keys can change places if the key of the first one is there. -/
theorem mergeBy_single_comm {xs : List α} {y z : α} (differ : key y ≠ key z)
    (present : key z ∈ xs.map key) :
    mergeBy key absorb (mergeBy key absorb xs [y]) [z] =
      mergeBy key absorb (mergeBy key absorb xs [z]) [y] := by
  induction xs with
  | nil => cases present
  | cons x xs ih =>
    by_cases first : key x = key z
    · have other : key x ≠ key y := fun same => differ (same.symm.trans first)
      have otherAfter : key (absorb x z) ≠ key y := by rwa [kept]
      rw [mergeBy_single_of_ne xs other, mergeBy_single_of_eq _ first,
        mergeBy_single_of_eq xs first, mergeBy_single_of_ne xs otherAfter]
    · have later : key z ∈ xs.map key := (List.mem_cons.mp present).resolve_left (Ne.symm first)
      by_cases second : key x = key y
      · have otherAfter : key (absorb x y) ≠ key z := by rwa [kept]
        rw [mergeBy_single_of_eq xs second, mergeBy_single_of_ne xs otherAfter,
          mergeBy_single_of_ne xs first, mergeBy_single_of_eq _ second]
      · rw [mergeBy_single_of_ne xs second, mergeBy_single_of_ne _ first,
          mergeBy_single_of_ne xs first, mergeBy_single_of_ne _ second,
          ih later]

theorem mergeBy_single_mergeBy {xs ys : List α} {z : α} (present : key z ∈ xs.map key)
    (apart : key z ∉ ys.map key) :
    mergeBy key absorb (mergeBy key absorb xs ys) [z] =
      mergeBy key absorb (mergeBy key absorb xs [z]) ys := by
  induction ys generalizing xs with
  | nil => rfl
  | cons y ys ih =>
    rw [List.map_cons, List.mem_cons, not_or] at apart
    have still : key z ∈ (mergeBy key absorb xs [y]).map key := by
      rw [map_mergeBy kept, mem_insertAll]
      exact Or.inl present
    rw [mergeBy_cons xs y ys, ih still apart.2,
      mergeBy_single_comm kept (Ne.symm apart.1) present]
    rfl

/-- To absorb an element that has absorbed another one is to absorb the two in turn. -/
theorem mergeBy_single_absorb {xs : List α} {y z : α} (same : key y = key z)
    (assoc : ∀ x, absorb (absorb x y) z = absorb x (absorb y z)) :
    mergeBy key absorb xs [absorb y z] = mergeBy key absorb (mergeBy key absorb xs [y]) [z] := by
  induction xs with
  | nil => exact (mergeBy_single_of_eq [] same).symm
  | cons x xs ih =>
    by_cases first : key x = key y
    · have firstAfter : key x = key (absorb y z) := by rwa [kept]
      have absorbing : key (absorb x y) = key z := by rw [kept, first, same]
      rw [mergeBy_single_of_eq xs firstAfter, mergeBy_single_of_eq xs first,
        mergeBy_single_of_eq xs absorbing, assoc]
    · have firstAfter : key x ≠ key (absorb y z) := by rwa [kept]
      have other : key x ≠ key z := fun last => first (last.trans same.symm)
      rw [mergeBy_single_of_ne xs firstAfter, mergeBy_single_of_ne xs first,
        mergeBy_single_of_ne _ other, ih]

theorem mergeBy_mergeBy_single {xs ys : List α} {z : α} (unique : (ys.map key).Nodup)
    (assoc : ∀ y ∈ ys, ∀ x, absorb (absorb x y) z = absorb x (absorb y z)) :
    mergeBy key absorb xs (mergeBy key absorb ys [z]) =
      mergeBy key absorb (mergeBy key absorb xs ys) [z] := by
  induction ys generalizing xs with
  | nil => rfl
  | cons y ys ih =>
    obtain ⟨fresh, unique⟩ := List.nodup_cons.mp unique
    rw [List.forall_mem_cons] at assoc
    by_cases same : key y = key z
    · have present : key z ∈ (mergeBy key absorb xs [y]).map key := by
        rw [map_mergeBy kept, mem_insertAll]
        exact Or.inr (by simp [same])
      rw [mergeBy_single_of_eq ys same, mergeBy_cons xs _ ys,
        mergeBy_single_absorb kept same assoc.1, mergeBy_cons xs y ys,
        mergeBy_single_mergeBy kept present (same ▸ fresh)]
    · rw [mergeBy_single_of_ne ys same, mergeBy_cons xs y, ih unique assoc.2]
      rfl

/-- Merging is associative on elements of a kind on which absorbing is, if the keys in the middle
    are unique. -/
theorem mergeBy_assoc {kind : α → Prop} {xs ys zs : List α} (unique : (ys.map key).Nodup)
    (middle : ∀ y ∈ ys, kind y) (last : ∀ z ∈ zs, kind z)
    (closed : ∀ z ∈ zs, ∀ y, kind y → kind (absorb y z))
    (assoc : ∀ z ∈ zs, ∀ y, kind y → ∀ x, absorb (absorb x y) z = absorb x (absorb y z)) :
    mergeBy key absorb (mergeBy key absorb xs ys) zs =
      mergeBy key absorb xs (mergeBy key absorb ys zs) := by
  induction zs generalizing ys with
  | nil => rfl
  | cons z zs ih =>
    rw [List.forall_mem_cons] at last closed assoc
    have uniqueAfter : ((mergeBy key absorb ys [z]).map key).Nodup := by
      rw [map_mergeBy kept]
      exact nodup_insertAll _ _ unique
    have kindAfter : ∀ y ∈ mergeBy key absorb ys [z], kind y :=
      forall_mem_mergeBy_single middle last.1
        fun y member _ => closed.1 y (middle y member)
    have first : mergeBy key absorb xs (mergeBy key absorb ys [z]) =
        mergeBy key absorb (mergeBy key absorb xs ys) [z] :=
      mergeBy_mergeBy_single kept unique fun y member => assoc.1 y (middle y member)
    rw [mergeBy_cons, ← first, ih uniqueAfter kindAfter last.2 closed.2 assoc.2]
    rfl

end Associative

section Lookup

variable (kept : ∀ x y, key (absorb x y) = key x)

include kept

theorem find?_mergeBy_single (xs : List α) (y : α) (name : String) :
    (mergeBy key absorb xs [y]).find? (key · == name) =
      if key y = name then Option.merge absorb (xs.find? (key · == name)) (some y)
      else xs.find? (key · == name) := by
  induction xs with
  | nil => by_cases named : key y = name <;> simp [mergeBy, upsert, named]
  | cons x xs ih =>
    by_cases same : key x = key y
    · rw [mergeBy_single_of_eq xs same]
      by_cases named : key y = name <;> simp [kept, same, named, Option.merge]
    · rw [mergeBy_single_of_ne xs same]
      by_cases first : key x = name
      · have other : key y ≠ name := fun named => same (first.trans named.symm)
        simp [first, other]
      · rw [List.find?_cons_of_neg (by simpa using first), ih,
          List.find?_cons_of_neg (by simpa using first)]

/-- Under each name there is what the two lists have there, merged. -/
theorem find?_mergeBy {xs ys : List α} (unique : (ys.map key).Nodup) (name : String) :
    (mergeBy key absorb xs ys).find? (key · == name) =
      Option.merge absorb (xs.find? (key · == name)) (ys.find? (key · == name)) := by
  induction ys generalizing xs with
  | nil => simp
  | cons y ys ih =>
    obtain ⟨fresh, unique⟩ := List.nodup_cons.mp unique
    rw [mergeBy_cons, ih unique, find?_mergeBy_single kept]
    by_cases named : key y = name
    · have missing : ys.find? (key · == name) = none := by
        rw [List.find?_eq_none]
        intro z member
        have other : key z ≠ key y := fun same => fresh (same ▸ List.mem_map_of_mem member)
        simpa [named] using other
      simp [named, missing]
    · rw [if_neg named, List.find?_cons_of_neg (by simpa using named)]

theorem mem_mergeBy_iff {xs ys : List α} (uniqueLeft : (xs.map key).Nodup)
    (uniqueRight : (ys.map key).Nodup) {z : α} :
    z ∈ mergeBy key absorb xs ys ↔ z ∈ xs ∧ key z ∉ ys.map key ∨
      (∃ x ∈ xs, ∃ y ∈ ys, key x = key y ∧ absorb x y = z) ∨ z ∈ ys ∧ key z ∉ xs.map key := by
  have unique : ((mergeBy key absorb xs ys).map key).Nodup := by
    rw [map_mergeBy kept]
    exact nodup_insertAll _ _ uniqueLeft
  have missing {zs : List α} {name : String} : zs.find? (key · == name) = none ↔ name ∉ zs.map key := by
    simp [List.find?_eq_none]
  constructor
  · intro member
    have found := find?_key_of_mem key unique member
    rw [find?_mergeBy kept uniqueRight] at found
    cases left : xs.find? (key · == key z) with
    | none =>
      rw [left, Option.merge_none_left] at found
      exact .inr (.inr ⟨List.mem_of_find?_eq_some found, missing.mp left⟩)
    | some x =>
      have named : key x = key z := by simpa using List.find?_some left
      cases right : ys.find? (key · == key z) with
      | none =>
        rw [left, right, Option.merge_none_right] at found
        cases found
        exact .inl ⟨List.mem_of_find?_eq_some left, missing.mp right⟩
      | some y =>
        have also : key y = key z := by simpa using List.find?_some right
        rw [left, right] at found
        exact .inr (.inl ⟨x, List.mem_of_find?_eq_some left, y, List.mem_of_find?_eq_some right,
          named.trans also.symm, Option.some.inj found⟩)
  · intro parts
    apply List.mem_of_find?_eq_some (p := (key · == key z))
    rw [find?_mergeBy kept uniqueRight]
    rcases parts with ⟨member, fresh⟩ | ⟨x, inLeft, y, inRight, same, rfl⟩ | ⟨member, fresh⟩
    · rw [find?_key_of_mem key uniqueLeft member, missing.mpr fresh, Option.merge_none_right]
    · rw [kept, find?_key_of_mem key uniqueLeft inLeft, same,
        find?_key_of_mem key uniqueRight inRight]
      rfl
    · rw [find?_key_of_mem key uniqueRight member, missing.mpr fresh, Option.merge_none_left]

end Lookup

section Membership

variable {holds : α → Prop}

theorem exists_mem_mergeBy_single (kept : ∀ x y, key (absorb x y) = key x)
    (either : ∀ x y, holds (absorb x y) ↔ holds x ∨ holds y) (xs : List α) (y : α) (name : String) :
    (∃ z ∈ mergeBy key absorb xs [y], key z = name ∧ holds z) ↔
      (∃ x ∈ xs, key x = name ∧ holds x) ∨ key y = name ∧ holds y := by
  induction xs with
  | nil => simp [mergeBy, upsert]
  | cons x xs ih =>
    by_cases same : key x = key y
    · rw [mergeBy_single_of_eq xs same]
      simp only [List.mem_cons, or_and_right, exists_or, exists_eq_left, kept, either, same]
      rw [and_or_left, or_assoc, or_assoc, or_comm (a := key y = name ∧ holds y)]
    · rw [mergeBy_single_of_ne xs same]
      simp only [List.mem_cons, or_and_right, exists_or, exists_eq_left, ih, or_assoc]

/-- What an element has if it or what it absorbs has it is found after merging if it was before. -/
theorem exists_mem_mergeBy (kept : ∀ x y, key (absorb x y) = key x)
    (either : ∀ x y, holds (absorb x y) ↔ holds x ∨ holds y) (xs ys : List α) (name : String) :
    (∃ z ∈ mergeBy key absorb xs ys, key z = name ∧ holds z) ↔
      (∃ x ∈ xs, key x = name ∧ holds x) ∨ ∃ y ∈ ys, key y = name ∧ holds y := by
  induction ys generalizing xs with
  | nil => simp
  | cons y ys ih =>
    rw [mergeBy_cons, ih, exists_mem_mergeBy_single kept either]
    simp only [List.mem_cons, or_and_right, exists_or, exists_eq_left, or_assoc]

end Membership

section Filter

variable {keep : α → Bool}

theorem filter_mergeBy_single (kept : ∀ x y, keep (absorb x y) = keep x)
    (alike : ∀ x y, key x = key y → keep x = keep y) (xs : List α) (y : α) :
    (mergeBy key absorb xs [y]).filter keep =
      mergeBy key absorb (xs.filter keep) ([y].filter keep) := by
  induction xs with
  | nil => cases chosen : keep y <;> simp [mergeBy, upsert, chosen]
  | cons x xs ih =>
    by_cases same : key x = key y
    · have equal := alike x y same
      rw [mergeBy_single_of_eq xs same]
      cases chosen : keep y with
      | false => simp [kept, equal, chosen]
      | true => simp [kept, equal, chosen, mergeBy_single_of_eq _ same]
    · rw [mergeBy_single_of_ne xs same]
      cases first : keep x with
      | false => simpa [first] using ih
      | true =>
        cases chosen : keep y with
        | false => simpa [first, chosen] using ih
        | true => simpa [first, chosen, mergeBy_single_of_ne _ same] using ih

/-- Elements chosen by their keys can be chosen before or after merging. -/
theorem filter_mergeBy (kept : ∀ x y, keep (absorb x y) = keep x)
    (alike : ∀ x y, key x = key y → keep x = keep y) (xs ys : List α) :
    (mergeBy key absorb xs ys).filter keep =
      mergeBy key absorb (xs.filter keep) (ys.filter keep) := by
  induction ys generalizing xs with
  | nil => rfl
  | cons y ys ih =>
    rw [mergeBy_cons, ih, filter_mergeBy_single kept alike]
    cases chosen : keep y with
    | false => simp [chosen]
    | true =>
      rw [List.filter_cons_of_pos chosen, List.filter_cons_of_pos chosen, mergeBy_cons _ y (ys.filter keep)]
      rfl

end Filter

/-- A map that keeps keys can be applied before or after merging if absorbing allows it. -/
theorem map_mergeBy_map {f : α → α} (named : ∀ x, key (f x) = key x) {xs ys : List α}
    (absorbed : ∀ y ∈ ys, ∀ x, f (absorb x y) = absorb (f x) (f y)) :
    (mergeBy key absorb xs ys).map f = mergeBy key absorb (xs.map f) (ys.map f) := by
  have single {y : α} (each : ∀ x, f (absorb x y) = absorb (f x) (f y)) (xs : List α) :
      (mergeBy key absorb xs [y]).map f = mergeBy key absorb (xs.map f) [f y] := by
    induction xs with
    | nil => rfl
    | cons x xs ih =>
      by_cases same : key x = key y
      · have sameAfter : key (f x) = key (f y) := by rwa [named, named]
        rw [mergeBy_single_of_eq xs same, List.map_cons, List.map_cons,
          mergeBy_single_of_eq _ sameAfter, each]
      · have differ : key (f x) ≠ key (f y) := by rwa [named, named]
        rw [mergeBy_single_of_ne xs same, List.map_cons, List.map_cons,
          mergeBy_single_of_ne _ differ, ih]
  induction ys generalizing xs with
  | nil => rfl
  | cons y ys ih =>
    rw [List.forall_mem_cons] at absorbed
    rw [mergeBy_cons, ih absorbed.2, single absorbed.1]
    rfl

theorem flatMap_mergeBy_single {values : α → List String}
    (kept : ∀ x y, values (absorb x y) = values x) {xs : List α} {y : α}
    (present : key y ∈ xs.map key) :
    (mergeBy key absorb xs [y]).flatMap values = xs.flatMap values := by
  induction xs with
  | nil => cases present
  | cons x xs ih =>
    by_cases same : key x = key y
    · rw [mergeBy_single_of_eq xs same, List.flatMap_cons, List.flatMap_cons, kept]
    · have later : key y ∈ xs.map key := (List.mem_cons.mp present).resolve_left (Ne.symm same)
      rw [mergeBy_single_of_ne xs same, List.flatMap_cons, List.flatMap_cons, ih later]

/-- Values that go with the keys are met in the same order in the two lists and in their merge. -/
theorem distinct_flatMap_mergeBy {values : α → List String}
    (kept : ∀ x y, values (absorb x y) = values x)
    (alike : ∀ x y, key x = key y → values x = values y) (xs ys : List α) :
    distinct ((mergeBy key absorb xs ys).flatMap values) =
      insertAll (distinct (xs.flatMap values)) (ys.flatMap values) := by
  have single (xs : List α) (y : α) : distinct ((mergeBy key absorb xs [y]).flatMap values) =
      insertAll (distinct (xs.flatMap values)) (values y) := by
    by_cases present : key y ∈ xs.map key
    · obtain ⟨x, member, same⟩ := List.mem_map.mp present
      rw [flatMap_mergeBy_single kept present, insertAll_eq_self]
      intro value chosen
      rw [mem_distinct, List.mem_flatMap]
      exact ⟨x, member, alike x y same ▸ chosen⟩
    · rw [mergeBy_single_of_fresh present, List.flatMap_append, distinct, insertAll_append]
      simp [distinct]
  induction ys generalizing xs with
  | nil => rfl
  | cons y ys ih =>
    rw [mergeBy_cons, ih, single, List.flatMap_cons, insertAll_append]

end MergeBy

namespace ResponseField

def absorb (existing field : ResponseField) : ResponseField :=
  { existing with
    isConditional := existing.isConditional && field.isConditional
    fields := mergeAll existing.fields field.fields
    spreads := insertAll existing.spreads field.spreads
    cases := mergeCases existing.cases field.cases }

end ResponseField

def TypeCase.absorb (existing typeCase : TypeCase ResponseField) : TypeCase ResponseField :=
  { existing with fields := ResponseField.mergeAll existing.fields typeCase.fields }

@[simp] theorem TypeCase.condition_absorb (existing typeCase : TypeCase ResponseField) :
    (existing.absorb typeCase).condition = existing.condition := rfl

namespace ResponseField

@[simp] theorem responseName_absorb (existing field : ResponseField) :
    (existing.absorb field).responseName = existing.responseName := rfl

theorem mergeInto_eq (into : List ResponseField) (field : ResponseField) :
    field.mergeInto into = mergeBy responseName absorb into [field] := by
  obtain ⟨name, fieldName, type, description, isConditional, fields, spreads, cases⟩ := field
  rw [mergeInto]
  rfl

theorem mergeAll_eq (into fields : List ResponseField) :
    mergeAll into fields = mergeBy responseName absorb into fields := by
  induction fields generalizing into with
  | nil => rw [mergeAll]; rfl
  | cons field rest ih => rw [mergeAll, ih, mergeInto_eq]; rfl

theorem mergeCases_eq (into cases : List (TypeCase ResponseField)) :
    mergeCases into cases = mergeBy TypeCase.condition TypeCase.absorb into cases := by
  induction cases generalizing into with
  | nil => rw [mergeCases]; rfl
  | cons typeCase rest ih =>
    obtain ⟨condition, possibleTypes, fields, spreads⟩ := typeCase
    rw [mergeCases, ih, mergeCase]
    rfl

@[simp] theorem mergeAll_nil (fields : List ResponseField) : mergeAll fields [] = fields := by
  rw [mergeAll]

@[simp] theorem mergeCases_nil (cases : List (TypeCase ResponseField)) : mergeCases cases [] = cases := by
  rw [mergeCases]

/-- To prove something of all fields, it may be assumed of those directly below. -/
theorem induction_below {motive : ResponseField → Prop}
    (step : ∀ field, (∀ child ∈ field.fields, motive child) →
      (∀ typeCase ∈ field.cases, ∀ child ∈ typeCase.fields, motive child) → motive field)
    (field : ResponseField) : motive field := by
  apply step field
  · intro child member
    exact induction_below step child
  · intro typeCase listed child member
    exact induction_below step child
termination_by sizeOf field
decreasing_by
  · have smaller := List.sizeOf_lt_of_mem member
    cases field
    simp_all only [mk.sizeOf_spec]
    omega
  · have smaller := List.sizeOf_lt_of_mem member
    have smallerCase := List.sizeOf_lt_of_mem listed
    cases field
    cases typeCase
    simp_all only [mk.sizeOf_spec, TypeCase.mk.sizeOf_spec]
    omega

/-- Response names, conditions of cases and names of spread fragments are unique at every depth. -/
inductive WellKeyed : ResponseField → Prop
  | intro {field : ResponseField} (keys : (ResponseField.keys field.fields).Nodup)
    (spreads : field.spreads.Nodup) (conditions : (field.cases.map TypeCase.condition).Nodup)
    (caseKeys : ∀ typeCase ∈ field.cases, (ResponseField.keys typeCase.fields).Nodup)
    (caseSpreads : ∀ typeCase ∈ field.cases, typeCase.spreads.Nodup)
    (below : ∀ child ∈ field.fields, WellKeyed child)
    (belowCases : ∀ typeCase ∈ field.cases, ∀ child ∈ typeCase.fields, WellKeyed child) :
    WellKeyed field

structure FieldsWellKeyed (fields : List ResponseField) : Prop where
  keys : (ResponseField.keys fields).Nodup
  each : ∀ field ∈ fields, field.WellKeyed

structure CaseWellKeyed (typeCase : TypeCase ResponseField) : Prop where
  fields : FieldsWellKeyed typeCase.fields
  spreads : typeCase.spreads.Nodup

structure CasesWellKeyed (cases : List (TypeCase ResponseField)) : Prop where
  conditions : (cases.map TypeCase.condition).Nodup
  each : ∀ typeCase ∈ cases, CaseWellKeyed typeCase

theorem wellKeyed_iff {field : ResponseField} :
    field.WellKeyed ↔
      FieldsWellKeyed field.fields ∧ field.spreads.Nodup ∧ CasesWellKeyed field.cases := by
  constructor
  · rintro ⟨keys, spreads, conditions, caseKeys, caseSpreads, below, belowCases⟩
    refine ⟨⟨keys, below⟩, spreads, conditions, ?_⟩
    intro typeCase member
    exact ⟨⟨caseKeys _ member, belowCases _ member⟩, caseSpreads _ member⟩
  · rintro ⟨⟨keys, below⟩, spreads, conditions, each⟩
    exact ⟨keys, spreads, conditions, fun _ member => (each _ member).fields.keys,
      fun _ member => (each _ member).spreads, below, fun _ member => (each _ member).fields.each⟩

theorem keys_mergeAll_nodup {into : List ResponseField} (unique : (keys into).Nodup)
    (fields : List ResponseField) : (keys (mergeAll into fields)).Nodup := by
  rw [keys_mergeAll]
  exact nodup_insertAll _ _ unique

/-- Lists of fields stay well keyed under merging if absorbing each of the new fields keeps single
    ones so. -/
theorem FieldsWellKeyed.merge_of {into fields : List ResponseField} (left : FieldsWellKeyed into)
    (right : FieldsWellKeyed fields)
    (absorbed : ∀ y ∈ fields, ∀ x : ResponseField, x.WellKeyed → (x.absorb y).WellKeyed) :
    FieldsWellKeyed (mergeAll into fields) := by
  refine ⟨keys_mergeAll_nodup left.keys fields, ?_⟩
  rw [mergeAll_eq]
  exact forall_mem_mergeBy left.each right.each fun y member x _ => absorbed y member x

theorem WellKeyed.absorb {field existing : ResponseField} (right : field.WellKeyed)
    (left : existing.WellKeyed) : (existing.absorb field).WellKeyed := by
  induction field using induction_below generalizing existing with
  | step field below belowCases =>
    obtain ⟨leftFields, leftSpreads, leftCases⟩ := wellKeyed_iff.mp left
    obtain ⟨rightFields, rightSpreads, rightCases⟩ := wellKeyed_iff.mp right
    have mergedFields : FieldsWellKeyed (mergeAll existing.fields field.fields) :=
      leftFields.merge_of rightFields fun y member x kind =>
        below y member (rightFields.each y member) kind
    have mergedConditions :
        ((mergeCases existing.cases field.cases).map TypeCase.condition).Nodup := by
      rw [mergeCases_eq, map_mergeBy TypeCase.condition_absorb]
      exact nodup_insertAll _ _ leftCases.conditions
    have mergedCases : ∀ typeCase ∈ mergeCases existing.cases field.cases, CaseWellKeyed typeCase := by
      rw [mergeCases_eq]
      refine forall_mem_mergeBy leftCases.each rightCases.each fun y member x _ kind => ?_
      have inCase := (rightCases.each y member).fields
      exact ⟨kind.fields.merge_of inCase fun child inside _ =>
        belowCases y member child inside (inCase.each child inside), kind.spreads⟩
    exact wellKeyed_iff.mpr ⟨mergedFields, nodup_insertAll _ _ leftSpreads, mergedConditions,
      mergedCases⟩

theorem FieldsWellKeyed.merge {into fields : List ResponseField} (left : FieldsWellKeyed into)
    (right : FieldsWellKeyed fields) : FieldsWellKeyed (mergeAll into fields) :=
  left.merge_of right fun y member _ => (right.each y member).absorb

theorem CaseWellKeyed.absorb {existing typeCase : TypeCase ResponseField}
    (left : CaseWellKeyed existing) (right : CaseWellKeyed typeCase) :
    CaseWellKeyed (existing.absorb typeCase) :=
  ⟨left.fields.merge right.fields, left.spreads⟩

theorem mergeAll_assoc_of {xs ys zs : List ResponseField} (middle : FieldsWellKeyed ys)
    (last : FieldsWellKeyed zs)
    (assoc : ∀ z ∈ zs, ∀ y : ResponseField, y.WellKeyed →
      ∀ x : ResponseField, (x.absorb y).absorb z = x.absorb (y.absorb z)) :
    mergeAll (mergeAll xs ys) zs = mergeAll xs (mergeAll ys zs) := by
  simp only [mergeAll_eq]
  exact mergeBy_assoc responseName_absorb middle.keys middle.each last.each
    (fun z member _ kind => (last.each z member).absorb kind) assoc

theorem absorb_assoc {z : ResponseField} (last : z.WellKeyed) {y : ResponseField}
    (middle : y.WellKeyed) (x : ResponseField) :
    (x.absorb y).absorb z = x.absorb (y.absorb z) := by
  induction z using induction_below generalizing x y with
  | step z below belowCases =>
    obtain ⟨yFields, _, yCases⟩ := wellKeyed_iff.mp middle
    obtain ⟨zFields, _, zCases⟩ := wellKeyed_iff.mp last
    have fields : mergeAll (mergeAll x.fields y.fields) z.fields =
        mergeAll x.fields (mergeAll y.fields z.fields) :=
      mergeAll_assoc_of yFields zFields fun child member _ kind x =>
        below child member (zFields.each child member) kind x
    have cases : mergeCases (mergeCases x.cases y.cases) z.cases =
        mergeCases x.cases (mergeCases y.cases z.cases) := by
      simp only [mergeCases_eq]
      refine mergeBy_assoc TypeCase.condition_absorb yCases.conditions yCases.each zCases.each
        (fun t member _ kind => kind.absorb (zCases.each t member)) ?_
      intro t member u kind v
      have inCase := (zCases.each t member).fields
      have caseFields : mergeAll (mergeAll v.fields u.fields) t.fields =
          mergeAll v.fields (mergeAll u.fields t.fields) :=
        mergeAll_assoc_of kind.fields inCase fun child inside _ kind x =>
          belowCases t member child inside (inCase.each child inside) kind x
      simp only [TypeCase.absorb, caseFields]
    simp only [absorb, fields, cases, insertAll_assoc, Bool.and_assoc]

theorem mergeAll_assoc {xs ys zs : List ResponseField} (middle : FieldsWellKeyed ys)
    (last : FieldsWellKeyed zs) : mergeAll (mergeAll xs ys) zs = mergeAll xs (mergeAll ys zs) :=
  mergeAll_assoc_of middle last fun z member _ kind x => absorb_assoc (last.each z member) kind x

theorem nil_mergeAll {fields : List ResponseField} (unique : (keys fields).Nodup) :
    mergeAll [] fields = fields := by
  rw [mergeAll_eq]
  exact nil_mergeBy unique

theorem mergeAll_self_of {fields : List ResponseField} (unique : (keys fields).Nodup)
    (same : ∀ field ∈ fields, field.absorb field = field) : mergeAll fields fields = fields := by
  rw [mergeAll_eq]
  refine mergeBy_eq_self (fun y member => List.mem_map_of_mem member) ?_
  intro y inFields x member named
  have equal : x = y := eq_of_key_eq responseName unique member inFields named
  rw [equal, same y inFields]

theorem mergeCases_self_of {cases : List (TypeCase ResponseField)} (kind : CasesWellKeyed cases)
    (same : ∀ typeCase ∈ cases, ∀ child ∈ typeCase.fields, child.absorb child = child) :
    mergeCases cases cases = cases := by
  rw [mergeCases_eq]
  refine mergeBy_eq_self (fun t member => List.mem_map_of_mem member) ?_
  intro t listed u member named
  have equal : u = t := eq_of_key_eq TypeCase.condition kind.conditions member listed named
  have fields : mergeAll t.fields t.fields = t.fields :=
    mergeAll_self_of (kind.each t listed).fields.keys (same t listed)
  rw [equal, TypeCase.absorb, fields]

theorem absorb_self {field : ResponseField} (kind : field.WellKeyed) : field.absorb field = field := by
  induction field using induction_below with
  | step field below belowCases =>
    obtain ⟨inFields, _, inCases⟩ := wellKeyed_iff.mp kind
    have sameFields : mergeAll field.fields field.fields = field.fields :=
      mergeAll_self_of inFields.keys fun child member => below child member (inFields.each child member)
    have sameCases : mergeCases field.cases field.cases = field.cases :=
      mergeCases_self_of inCases fun t listed child member =>
        belowCases t listed child member ((inCases.each t listed).fields.each child member)
    cases field
    simp_all only [absorb, insertAll_self, Bool.and_self]

theorem mergeAll_self {fields : List ResponseField} (kind : FieldsWellKeyed fields) :
    mergeAll fields fields = fields :=
  mergeAll_self_of kind.keys fun field member => absorb_self (kind.each field member)

theorem CaseWellKeyed.absorb_self {typeCase : TypeCase ResponseField} (kind : CaseWellKeyed typeCase) :
    typeCase.absorb typeCase = typeCase := by
  rw [TypeCase.absorb, mergeAll_self kind.fields]

end ResponseField

end QueryTypes
