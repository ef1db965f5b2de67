import QueryTypes.Ordered

namespace QueryTypes

variable {α : Type}

section Distinct

variable [DecidableEq α]

@[simp] theorem mem_insertNew (xs : List α) (x y : α) : y ∈ insertNew xs x ↔ y ∈ xs ∨ y = x := by
  unfold insertNew
  split
  · rename_i present
    constructor
    · exact Or.inl
    · rintro (member | rfl)
      · exact member
      · exact present
  · simp

@[simp] theorem mem_insertAll (xs ys : List α) (y : α) :
    y ∈ insertAll xs ys ↔ y ∈ xs ∨ y ∈ ys := by
  unfold insertAll
  induction ys generalizing xs with
  | nil => simp
  | cons head rest ih => simp only [List.foldl_cons, ih, mem_insertNew, List.mem_cons, or_assoc]

@[simp] theorem mem_distinct (xs : List α) (x : α) : x ∈ distinct xs ↔ x ∈ xs := by
  simp [distinct]

theorem nodup_insertNew (xs : List α) (x : α) (unique : xs.Nodup) : (insertNew xs x).Nodup := by
  unfold insertNew
  split
  · exact unique
  · rename_i fresh
    rw [List.nodup_append]
    refine ⟨unique, by simp, ?_⟩
    intro a left b right same
    have last : b = x := by simpa using right
    exact fresh (last ▸ same ▸ left)

theorem nodup_insertAll (xs ys : List α) (unique : xs.Nodup) : (insertAll xs ys).Nodup := by
  unfold insertAll
  induction ys generalizing xs with
  | nil => exact unique
  | cons head rest ih => exact ih _ (nodup_insertNew xs head unique)

theorem insertAll_eq_self {xs ys : List α} (present : ∀ y ∈ ys, y ∈ xs) : insertAll xs ys = xs := by
  induction ys with
  | nil => rfl
  | cons y ys ih =>
    rw [List.forall_mem_cons] at present
    have first : insertNew xs y = xs := if_pos present.1
    change insertAll (insertNew xs y) ys = xs
    rw [first, ih present.2]

theorem insertAll_self (xs : List α) : insertAll xs xs = xs := insertAll_eq_self fun _ => id

theorem insertAll_insertNew (xs ys : List α) (z : α) :
    insertAll xs (insertNew ys z) = insertNew (insertAll xs ys) z := by
  by_cases present : z ∈ ys
  · have after : z ∈ insertAll xs ys := (mem_insertAll xs ys z).mpr (Or.inr present)
    simp only [insertNew, present, after, ↓reduceIte]
  · simp only [insertNew, present, ↓reduceIte]
    unfold insertAll
    rw [List.foldl_append]
    rfl

theorem insertAll_assoc (xs ys zs : List α) :
    insertAll xs (insertAll ys zs) = insertAll (insertAll xs ys) zs := by
  induction zs generalizing ys with
  | nil => rfl
  | cons z zs ih =>
    change insertAll xs (insertAll (insertNew ys z) zs) = insertAll (insertNew (insertAll xs ys) z) zs
    rw [ih, insertAll_insertNew]

theorem insertAll_append (xs ys zs : List α) :
    insertAll xs (ys ++ zs) = insertAll (insertAll xs ys) zs := List.foldl_append

/-- Elements that are not there come behind the others, each once. -/
theorem insertAll_eq_append {xs ys : List α} (apart : ∀ y ∈ ys, y ∉ xs) :
    insertAll xs ys = xs ++ distinct ys := by
  have general (done : List α) : insertAll (xs ++ done) ys = xs ++ insertAll done ys := by
    induction ys generalizing done with
    | nil => rfl
    | cons y ys ih =>
      rw [List.forall_mem_cons] at apart
      have first : insertNew (xs ++ done) y = xs ++ insertNew done y := by
        by_cases present : y ∈ done <;> simp [insertNew, present, apart.1]
      change insertAll (insertNew (xs ++ done) y) ys = xs ++ insertAll (insertNew done y) ys
      rw [first, ih apart.2]
  have whole := general []
  rwa [List.append_nil] at whole

/-- Elements that are not repeated come behind the others, those that are there left out. -/
theorem insertAll_eq_append_filter {xs ys : List α} (unique : ys.Nodup) :
    insertAll xs ys = xs ++ ys.filter (· ∉ xs) := by
  induction ys generalizing xs with
  | nil => simp [insertAll]
  | cons y ys ih =>
    obtain ⟨fresh, unique⟩ := List.nodup_cons.mp unique
    change insertAll (insertNew xs y) ys = _
    rw [ih unique]
    by_cases present : y ∈ xs
    · simp [insertNew, present]
    · have same : ys.filter (· ∉ xs ++ [y]) = ys.filter (· ∉ xs) := by
        apply List.filter_congr
        intro z member
        have other : z ≠ y := fun equal => fresh (equal ▸ member)
        simp [other]
      simp only [insertNew, present, ↓reduceIte, same]
      simp [present]

theorem filter_insertAll (keep : α → Bool) (xs ys : List α) :
    (insertAll xs ys).filter keep = insertAll (xs.filter keep) (ys.filter keep) := by
  have single (xs : List α) (y : α) :
      (insertNew xs y).filter keep = insertAll (xs.filter keep) ([y].filter keep) := by
    cases kept : keep y with
    | false =>
      by_cases present : y ∈ xs <;> simp [insertNew, present, kept, insertAll]
    | true =>
      by_cases present : y ∈ xs <;> simp [insertNew, present, kept, insertAll]
  induction ys generalizing xs with
  | nil => rfl
  | cons y ys ih =>
    change (insertAll (insertNew xs y) ys).filter keep = _
    rw [ih, single, ← insertAll_append, ← List.filter_append]
    rfl

theorem nodup_distinct (xs : List α) : (distinct xs).Nodup := nodup_insertAll [] xs List.nodup_nil

theorem distinct_eq_self {xs : List α} (unique : xs.Nodup) : distinct xs = xs := by
  have general (done : List α) (apart : (done ++ xs).Nodup) : insertAll done xs = done ++ xs := by
    clear unique
    induction xs generalizing done with
    | nil => simp [insertAll]
    | cons x xs ih =>
      have fresh : x ∉ done := fun member =>
        (List.nodup_append.mp apart).2.2 x member x List.mem_cons_self rfl
      have first : insertNew done x = done ++ [x] := if_neg fresh
      change insertAll (insertNew done x) xs = done ++ x :: xs
      rw [first, ih _ (by simpa using apart)]
      simp
  exact general [] unique

end Distinct

section PutBy

variable (key : α → String)

theorem mem_of_mem_putBy {xs : List α} {x y : α} (member : y ∈ putBy key xs x) :
    y = x ∨ y ∈ xs := by
  induction xs with
  | nil => exact Or.inl (by simpa [putBy] using member)
  | cons head rest ih =>
    unfold putBy at member
    split at member
    · rcases List.mem_cons.mp member with rfl | member
      · exact Or.inl rfl
      · exact Or.inr (List.mem_cons_of_mem _ member)
    · rcases List.mem_cons.mp member with rfl | member
      · exact Or.inr List.mem_cons_self
      · exact (ih member).imp_right (List.mem_cons_of_mem _)

theorem map_putBy (xs : List α) (x : α) :
    (putBy key xs x).map key = insertNew (xs.map key) (key x) := by
  induction xs with
  | nil => rfl
  | cons head rest ih =>
    unfold putBy
    by_cases same : key head = key x
    · simp [same, insertNew]
    · rw [if_neg same, List.map_cons, ih]
      by_cases present : key x ∈ rest.map key
      · simp [insertNew, present]
      · simp [insertNew, present, Ne.symm same]

theorem map_putBy_map {β : Type} {other : β → String} {f : α → β} (kept : ∀ x, other (f x) = key x)
    (xs : List α) (x : α) : (putBy key xs x).map f = putBy other (xs.map f) (f x) := by
  induction xs with
  | nil => rfl
  | cons head rest ih =>
    by_cases same : key head = key x
    · simp [putBy, kept, same]
    · simp [putBy, kept, same, ih]

theorem map_distinctBy_map {β : Type} {other : β → String} {f : α → β}
    (kept : ∀ x, other (f x) = key x) (xs : List α) :
    (distinctBy key xs).map f = distinctBy other (xs.map f) := by
  have general (done : List α) :
      (xs.foldl (putBy key) done).map f = (xs.map f).foldl (putBy other) (done.map f) := by
    induction xs generalizing done with
    | nil => rfl
    | cons head rest ih =>
      rw [List.foldl_cons, ih, map_putBy_map key kept]
      rfl
  exact general []

theorem map_distinctBy_congr {f : α → α} (kept : ∀ x, key (f x) = key x) {xs ys : List α}
    (same : xs.map f = ys.map f) : (distinctBy key xs).map f = (distinctBy key ys).map f := by
  rw [map_distinctBy_map key kept, same, ← map_distinctBy_map key kept]

theorem map_distinctBy (xs : List α) : (distinctBy key xs).map key = distinct (xs.map key) := by
  have general (done : List α) :
      (xs.foldl (putBy key) done).map key = insertAll (done.map key) (xs.map key) := by
    induction xs generalizing done with
    | nil => rfl
    | cons head rest ih =>
      rw [List.foldl_cons, ih, map_putBy]
      rfl
  exact general []

theorem mem_of_mem_foldl_putBy {xs done : List α} {x : α} (member : x ∈ xs.foldl (putBy key) done) :
    x ∈ done ∨ x ∈ xs := by
  induction xs generalizing done with
  | nil => exact Or.inl member
  | cons head rest ih =>
    rcases ih member with found | found
    · rcases mem_of_mem_putBy key found with rfl | found
      · exact Or.inr List.mem_cons_self
      · exact Or.inl found
    · exact Or.inr (List.mem_cons_of_mem _ found)

theorem mem_of_mem_distinctBy {xs : List α} {x : α} (member : x ∈ distinctBy key xs) : x ∈ xs :=
  (mem_of_mem_foldl_putBy key member).resolve_left List.not_mem_nil

theorem putBy_of_fresh {xs : List α} {x : α} (fresh : key x ∉ xs.map key) : putBy key xs x = xs ++ [x] := by
  induction xs with
  | nil => rfl
  | cons head rest ih =>
    rw [List.map_cons, List.mem_cons, not_or] at fresh
    rw [putBy, if_neg (Ne.symm fresh.1), ih fresh.2, List.cons_append]

theorem distinctBy_eq_self {xs : List α} (unique : (xs.map key).Nodup) : distinctBy key xs = xs := by
  have general (done : List α) (apart : ((done ++ xs).map key).Nodup) :
      xs.foldl (putBy key) done = done ++ xs := by
    clear unique
    induction xs generalizing done with
    | nil => simp
    | cons x xs ih =>
      have fresh : key x ∉ done.map key := by
        rw [List.map_append, List.nodup_append] at apart
        intro member
        exact apart.2.2 (key x) member (key x) (by simp) rfl
      rw [List.foldl_cons, putBy_of_fresh key fresh, ih _ (by simpa using apart)]
      simp
  exact general [] unique

theorem find?_putBy (xs : List α) (x : α) (name : String) :
    (putBy key xs x).find? (key · == name) =
      if key x = name then some x else xs.find? (key · == name) := by
  induction xs with
  | nil =>
    by_cases same : key x = name <;> simp [putBy, same]
  | cons head rest ih =>
    unfold putBy
    by_cases replaced : key head = key x
    · by_cases same : key x = name <;> simp [replaced, same]
    · rw [if_neg replaced]
      by_cases first : key head = name
      · have other : key x ≠ name := fun same => replaced (first.trans same.symm)
        simp [first, other]
      · have skip : (key head == name) = false := by simpa using first
        simp only [List.find?_cons, skip, ih]

/-- Under a key stands the last element of the list with this key. -/
theorem find?_distinctBy (xs : List α) (name : String) :
    (distinctBy key xs).find? (key · == name) = xs.reverse.find? (key · == name) := by
  have general (done : List α) : (xs.foldl (putBy key) done).find? (key · == name) =
      (xs.reverse.find? (key · == name)).or (done.find? (key · == name)) := by
    induction xs generalizing done with
    | nil => rfl
    | cons x xs ih =>
      rw [List.foldl_cons, ih, find?_putBy, List.reverse_cons, List.find?_append, Option.or_assoc]
      congr 1
      by_cases same : key x = name <;> simp [same]
  have whole := general []
  rwa [List.find?_nil, Option.or_none] at whole

theorem find?_foldl_putBy {xs : List α} {name : String} (apart : ∀ x ∈ xs, key x ≠ name)
    (done : List α) :
    (xs.foldl (putBy key) done).find? (key · == name) = done.find? (key · == name) := by
  induction xs generalizing done with
  | nil => rfl
  | cons x xs ih =>
    rw [List.forall_mem_cons] at apart
    rw [List.foldl_cons, ih apart.2, find?_putBy, if_neg apart.1]

end PutBy

theorem find?_key_of_mem (key : α → String) {xs : List α} {x : α} (unique : (xs.map key).Nodup)
    (member : x ∈ xs) : xs.find? (key · == key x) = some x := by
  induction xs with
  | nil => cases member
  | cons head rest ih =>
    obtain ⟨fresh, unique⟩ := List.nodup_cons.mp unique
    rcases List.mem_cons.mp member with rfl | member
    · simp
    · have other : key head ≠ key x := fun same => fresh (same ▸ List.mem_map_of_mem member)
      rw [List.find?_cons_of_neg (by simpa using other)]
      exact ih unique member

theorem eq_of_key_eq (key : α → String) {xs : List α} {x y : α} (unique : (xs.map key).Nodup)
    (left : x ∈ xs) (right : y ∈ xs) (same : key x = key y) : x = y := by
  have foundLeft := find?_key_of_mem key unique left
  have foundRight := find?_key_of_mem key unique right
  rw [same, foundRight] at foundLeft
  exact (Option.some.inj foundLeft).symm

/-- Lists with the same unique keys in the same order are equal if they have the same elements under
    these keys. -/
theorem eq_of_find?_eq (key : α → String) {xs ys : List α} (names : xs.map key = ys.map key)
    (unique : (xs.map key).Nodup)
    (found : ∀ name, xs.find? (key · == name) = ys.find? (key · == name)) : xs = ys := by
  have each : ∀ x ∈ xs, x ∈ ys ∧ ys.find? (key · == key x) = some x := by
    intro x member
    have other := (found (key x)).symm.trans (find?_key_of_mem key unique member)
    exact ⟨List.mem_of_find?_eq_some other, other⟩
  clear found
  induction xs generalizing ys with
  | nil => exact (List.map_eq_nil_iff.mp names.symm).symm
  | cons x xs ih =>
    cases ys with
    | nil => cases names
    | cons y ys =>
      obtain ⟨sameKey, tails⟩ := List.cons.inj names
      obtain ⟨fresh, uniqueTail⟩ := List.nodup_cons.mp unique
      rw [List.forall_mem_cons] at each
      have first : y = x := by simpa [sameKey] using each.1.2
      subst first
      congr 1
      apply ih tails uniqueTail
      intro z member
      have other : key y ≠ key z := fun same => fresh (same ▸ List.mem_map_of_mem member)
      obtain ⟨_, foundTail⟩ := each.2 z member
      rw [List.find?_cons_of_neg (by simpa using other)] at foundTail
      exact ⟨List.mem_of_find?_eq_some foundTail, foundTail⟩

theorem parts_of_map_prodMap {α β γ δ : Type} {view : α → β} {keep : List γ → List δ} {xs ys : List (α × List γ)}
    (same : xs.map (Prod.map view keep) = ys.map (Prod.map view keep)) :
    (xs.map Prod.fst).map view = (ys.map Prod.fst).map view ∧
      xs.flatMap (fun x => keep x.2) = ys.flatMap fun y => keep y.2 := by
  constructor
  · have first := congrArg (List.map Prod.fst) same
    rw [List.map_map, List.map_map] at first
    rw [List.map_map, List.map_map]
    exact first
  · have second := congrArg (List.flatMap Prod.snd) same
    rw [List.flatMap_map, List.flatMap_map] at second
    exact second

end QueryTypes
