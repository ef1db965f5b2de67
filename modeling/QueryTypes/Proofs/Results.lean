namespace QueryTypes

variable {α β γ ε : Type}

theorem bind_eq_ok {x : Except ε α} {next : α → Except ε β} {b : β} :
    x >>= next = .ok b ↔ ∃ a, x = .ok a ∧ next a = .ok b := by
  cases x with
  | error e => simp [Bind.bind, Except.bind]
  | ok a => simp [Bind.bind, Except.bind]

theorem ok_bind (a : α) (next : α → Except ε β) : (Except.ok a >>= next) = next a := rfl

theorem error_bind (e : ε) (next : α → Except ε β) : (Except.error e >>= next) = .error e := rfl

/-- What each step of a fold leaves as it is, the whole fold leaves as it is. -/
theorem foldlM_observed {step : β → α → Except ε β} {xs : List α} {start last : β}
    (observe : β → γ) (kept : ∀ b x next, step b x = .ok next → observe next = observe b)
    (done : xs.foldlM step start = .ok last) : observe last = observe start := by
  induction xs generalizing start with
  | nil => cases done; rfl
  | cons x xs ih =>
    rw [List.foldlM_cons, bind_eq_ok] at done
    obtain ⟨middle, first, rest⟩ := done
    exact (ih rest).trans (kept start x middle first)

theorem holds_of_foldlM {step : β → α → Except ε β} {xs : List α} {start last : β} (holds : β → Prop)
    (kept : ∀ x ∈ xs, ∀ b next, holds b → step b x = .ok next → holds next) (first : holds start)
    (done : xs.foldlM step start = .ok last) : holds last := by
  induction xs generalizing start with
  | nil => cases done; exact first
  | cons x xs ih =>
    rw [List.forall_mem_cons] at kept
    rw [List.foldlM_cons, bind_eq_ok] at done
    obtain ⟨middle, stepped, rest⟩ := done
    exact ih kept.2 (kept.1 start middle first stepped) rest

theorem forM_eq_ok {check : α → Except ε Unit} {xs : List α} (passed : xs.forM check = .ok ()) :
    ∀ x ∈ xs, check x = .ok () := by
  induction xs with
  | nil => exact nofun
  | cons x xs ih =>
    obtain ⟨_, ok, others⟩ := bind_eq_ok.mp passed
    exact List.forall_mem_cons.mpr ⟨ok, ih others⟩

theorem exists_of_mapM {f : α → Except ε β} {xs : List α} {ys : List β}
    (done : xs.mapM f = .ok ys) {x : α} (member : x ∈ xs) : ∃ y ∈ ys, f x = .ok y := by
  induction xs generalizing ys with
  | nil => cases member
  | cons first xs ih =>
    rw [List.mapM_cons] at done
    obtain ⟨y, ok, done⟩ := bind_eq_ok.mp done
    obtain ⟨rest, others, done⟩ := bind_eq_ok.mp done
    cases done
    rcases List.mem_cons.mp member with rfl | member
    · exact ⟨y, List.mem_cons_self, ok⟩
    · obtain ⟨z, inRest, found⟩ := ih others member
      exact ⟨z, List.mem_cons_of_mem y inRest, found⟩

theorem exists_of_mem_mapM {f : α → Except ε β} {xs : List α} {ys : List β}
    (done : xs.mapM f = .ok ys) {y : β} (member : y ∈ ys) : ∃ x ∈ xs, f x = .ok y := by
  induction xs generalizing ys with
  | nil =>
    cases done
    cases member
  | cons first xs ih =>
    rw [List.mapM_cons] at done
    obtain ⟨z, ok, done⟩ := bind_eq_ok.mp done
    obtain ⟨rest, others, done⟩ := bind_eq_ok.mp done
    cases done
    rcases List.mem_cons.mp member with rfl | member
    · exact ⟨first, List.mem_cons_self, ok⟩
    · obtain ⟨x, inRest, found⟩ := ih others member
      exact ⟨x, List.mem_cons_of_mem first inRest, found⟩

theorem map_eq_of_mapM {f : α → Except ε β} {view : β → γ} {g : α → γ} {xs : List α} {ys : List β}
    (known : ∀ x y, f x = .ok y → view y = g x) (done : xs.mapM f = .ok ys) : ys.map view = xs.map g := by
  induction xs generalizing ys with
  | nil =>
    cases done
    rfl
  | cons x xs ih =>
    rw [List.mapM_cons] at done
    obtain ⟨y, ok, done⟩ := bind_eq_ok.mp done
    obtain ⟨rest, others, done⟩ := bind_eq_ok.mp done
    cases done
    rw [List.map_cons, List.map_cons, known x y ok, ih others]

theorem eq_map_of_mapM {f : α → Except ε β} {g : α → β} {xs : List α} {ys : List β}
    (known : ∀ x y, f x = .ok y → y = g x) (done : xs.mapM f = .ok ys) : ys = xs.map g := by
  have same := map_eq_of_mapM known done
  rwa [List.map_id'] at same

theorem mapM_congr {f g : α → Except ε β} {xs : List α} (same : ∀ x ∈ xs, f x = g x) :
    xs.mapM f = xs.mapM g := by
  induction xs with
  | nil => rfl
  | cons x xs ih =>
    rw [List.forall_mem_cons] at same
    rw [List.mapM_cons, List.mapM_cons, same.1, ih same.2]

theorem mapM_eq_map {f : α → Except ε β} {g : α → β} {xs : List α} (known : ∀ x ∈ xs, f x = .ok (g x)) :
    xs.mapM f = .ok (xs.map g) := by
  induction xs with
  | nil => rfl
  | cons x xs ih =>
    rw [List.forall_mem_cons] at known
    rw [List.mapM_cons, known.1, ok_bind, ih known.2]
    rfl

theorem mapM_eq_self {f : α → Except ε α} {xs : List α} (fixed : ∀ x ∈ xs, f x = .ok x) :
    xs.mapM f = .ok xs := by
  rw [mapM_eq_map fixed, List.map_id']

section FailsOnly

def FailsOnly (allowed : ε → Prop) (x : Except ε α) : Prop := ∀ e, x = .error e → allowed e

variable {allowed : ε → Prop}

theorem FailsOnly.ok (a : α) : FailsOnly allowed (.ok a : Except ε α) := nofun

theorem FailsOnly.error {e : ε} (kind : allowed e) :
    FailsOnly allowed (.error e : Except ε α) := by
  rintro _ ⟨⟩
  exact kind

theorem FailsOnly.bind {x : Except ε α} {next : α → Except ε β} (first : FailsOnly allowed x)
    (onward : ∀ a, x = .ok a → FailsOnly allowed (next a)) : FailsOnly allowed (x >>= next) := by
  cases x with
  | error e => exact .error (first e rfl)
  | ok a => exact onward a rfl

theorem FailsOnly.mapM {f : α → Except ε β} {xs : List α}
    (each : ∀ x ∈ xs, FailsOnly allowed (f x)) : FailsOnly allowed (xs.mapM f) := by
  induction xs with
  | nil => exact .ok []
  | cons x xs ih =>
    rw [List.forall_mem_cons] at each
    rw [List.mapM_cons]
    refine each.1.bind fun y _ => ?_
    refine (ih each.2).bind fun ys _ => ?_
    exact .ok (y :: ys)

end FailsOnly

section Observed

variable {δ : Type}

def observed (view : α → β) : Except ε α → Option β
  | .ok a => some (view a)
  | .error _ => none

theorem observed_bind {view : α → γ} {look : β → δ} {x y : Except ε α} {f g : α → Except ε β}
    (first : observed view x = observed view y)
    (onward : ∀ a b, x = .ok a → y = .ok b → view a = view b →
      observed look (f a) = observed look (g b)) :
    observed look (x >>= f) = observed look (y >>= g) := by
  cases x with
  | error e =>
    cases y with
    | error e' => rfl
    | ok b => cases first
  | ok a =>
    cases y with
    | error e' => cases first
    | ok b => exact onward a b rfl rfl (Option.some.inj first)

theorem observed_mapM {view : β → γ} {f g : α → Except ε β} {xs : List α}
    (each : ∀ x ∈ xs, observed view (f x) = observed view (g x)) :
    observed (List.map view) (xs.mapM f) = observed (List.map view) (xs.mapM g) := by
  induction xs with
  | nil => rfl
  | cons x xs ih =>
    rw [List.forall_mem_cons] at each
    rw [List.mapM_cons, List.mapM_cons]
    refine observed_bind each.1 fun y z _ _ first => ?_
    refine observed_bind (ih each.2) fun ys zs _ _ rest => ?_
    change some (view y :: ys.map view) = some (view z :: zs.map view)
    rw [first, rest]

theorem observed_unit_of_iff {x y : Except ε α} (same : (∃ a, x = .ok a) ↔ ∃ b, y = .ok b) :
    observed (fun _ => ()) x = observed (fun _ => ()) y := by
  cases x with
  | error e =>
    cases y with
    | error e' => rfl
    | ok b => exact nomatch same.mpr ⟨b, rfl⟩
  | ok a =>
    cases y with
    | error e' => exact nomatch same.mp ⟨a, rfl⟩
    | ok b => rfl

/-- Outcomes that look alike are both results or both faults, and results have the same view. -/
theorem ok_iff_of_observed {view : α → γ} {x y : Except ε α} (same : observed view x = observed view y) :
    ((∃ a, x = .ok a) ↔ ∃ b, y = .ok b) ∧ ∀ a b, x = .ok a → y = .ok b → view a = view b := by
  cases x with
  | error e =>
    cases y with
    | error e' => exact ⟨⟨nofun, nofun⟩, nofun⟩
    | ok b => cases same
  | ok a =>
    cases y with
    | error e' => cases same
    | ok b =>
      refine ⟨⟨fun _ => ⟨b, rfl⟩, fun _ => ⟨a, rfl⟩⟩, ?_⟩
      rintro _ _ ⟨⟩ ⟨⟩
      exact Option.some.inj same

end Observed

end QueryTypes
