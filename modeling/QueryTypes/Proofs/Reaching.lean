import QueryTypes.Graph

namespace QueryTypes

namespace Graph

theorem next_map {α : Type} (key : α → String) (edges : α → List String) (xs : List α) (name : String) :
    (Graph.mk (xs.map fun x => (key x, edges x))).next name =
      ((xs.find? (key · == name)).map edges).getD [] := by
  unfold next
  congr 1
  induction xs with
  | nil => rfl
  | cons first rest ih =>
    by_cases same : key first = name
    · simp [same]
    · have other : (name == key first) = false := by simpa using Ne.symm same
      simp only [List.map_cons, List.lookup_cons, other, ih]
      rw [List.find?_cons_of_neg (by simpa using same)]

/-- A search step by step: what is found from the pending names, behind those that were seen. -/
inductive Explores (graph : Graph) : List String → List String → List String → Prop
  | done {seen} : Explores graph seen [] seen
  | known {seen name pending found} (member : name ∈ seen) (rest : Explores graph seen pending found) :
    Explores graph seen (name :: pending) found
  | fresh {seen name pending found} (unseen : name ∉ seen)
    (rest : Explores graph (seen ++ [name]) (graph.next name ++ pending) found) :
    Explores graph seen (name :: pending) found

variable {graph other : Graph} {names seen pending found : List String}

theorem explores (graph : Graph) (seen pending : List String) :
    graph.Explores seen pending (graph.explore seen pending) := by
  fun_induction explore graph seen pending with
  | case1 seen => exact .done
  | case2 seen name pending member ih => exact .known member ih
  | case3 seen name pending unseen ih => exact .fresh unseen ih

namespace Explores

theorem explore_eq (run : graph.Explores seen pending found) : graph.explore seen pending = found := by
  induction run with
  | done => rw [explore]
  | known member rest ih => rw [explore, dif_pos member, ih]
  | fresh unseen rest ih => rw [explore, dif_neg unseen, ih]

theorem forall_mem {holds : String → Prop} (run : graph.Explores seen pending found)
    (along : ∀ name, holds name → ∀ next ∈ graph.next name, holds next)
    (before : ∀ name ∈ seen, holds name) (waiting : ∀ name ∈ pending, holds name) :
    ∀ name ∈ found, holds name := by
  induction run with
  | done => exact before
  | known member rest ih => exact ih before (List.forall_mem_cons.mp waiting).2
  | fresh unseen rest ih =>
    obtain ⟨first, others⟩ := List.forall_mem_cons.mp waiting
    apply ih
    · exact List.forall_mem_append.mpr ⟨before, by simpa using first⟩
    · exact List.forall_mem_append.mpr ⟨along _ first, others⟩

theorem congr {holds : String → Prop} (run : graph.Explores seen pending found)
    (along : ∀ name, holds name → ∀ next ∈ graph.next name, holds next)
    (agree : ∀ name, holds name → graph.next name = other.next name)
    (waiting : ∀ name ∈ pending, holds name) : other.Explores seen pending found := by
  induction run with
  | done => exact .done
  | known member rest ih => exact .known member (ih (List.forall_mem_cons.mp waiting).2)
  | fresh unseen rest ih =>
    obtain ⟨first, others⟩ := List.forall_mem_cons.mp waiting
    have onward := ih (List.forall_mem_append.mpr ⟨along _ first, others⟩)
    rw [agree _ first] at onward
    exact .fresh unseen onward

theorem subset (run : graph.Explores seen pending found) : seen ⊆ found ∧ pending ⊆ found := by
  induction run with
  | done => exact ⟨List.Subset.refl _, List.nil_subset _⟩
  | known member rest ih => exact ⟨ih.1, List.cons_subset.mpr ⟨ih.1 member, ih.2⟩⟩
  | fresh unseen rest ih =>
    obtain ⟨before, first⟩ := List.append_subset.mp ih.1
    obtain ⟨_, others⟩ := List.append_subset.mp ih.2
    exact ⟨before, List.cons_subset.mpr ⟨first (List.mem_singleton_self _), others⟩⟩

theorem next_mem {name next : String} (run : graph.Explores seen pending found) (reached : name ∈ found)
    (new : name ∉ seen) (edge : next ∈ graph.next name) : next ∈ found := by
  induction run with
  | done => exact absurd reached new
  | known member rest ih => exact ih reached new
  | @fresh seen first pending found unseen rest ih =>
    by_cases same : name = first
    · subst same
      exact rest.subset.2 (List.mem_append_left _ edge)
    · exact ih reached (by simp [new, same])

theorem nodup (run : graph.Explores seen pending found) (unique : seen.Nodup) : found.Nodup := by
  induction run with
  | done => exact unique
  | known member rest ih => exact ih unique
  | fresh unseen rest ih =>
    apply ih
    rw [List.nodup_append]
    refine ⟨unique, by simp, ?_⟩
    rintro other seenBefore _ new rfl
    rw [List.mem_singleton.mp new] at seenBefore
    exact unseen seenBefore

end Explores

/-- What holds of the given names, and along edges, holds of all that are reached. -/
theorem forall_mem_reach {holds : String → Prop}
    (along : ∀ name, holds name → ∀ next ∈ graph.next name, holds next)
    (start : ∀ name ∈ names, holds name) : ∀ name ∈ graph.reach names, holds name :=
  (graph.explores [] names).forall_mem along (List.forall_mem_nil _) start

/-- Graphs that agree on the names to start from, and along edges, are searched in the same way. -/
theorem reach_congr {holds : String → Prop}
    (along : ∀ name, holds name → ∀ next ∈ graph.next name, holds next)
    (agree : ∀ name, holds name → graph.next name = other.next name)
    (start : ∀ name ∈ names, holds name) : graph.reach names = other.reach names :=
  ((graph.explores [] names).congr along agree start).explore_eq.symm

theorem nodup_reach (graph : Graph) (names : List String) : (graph.reach names).Nodup :=
  (graph.explores [] names).nodup List.nodup_nil

theorem mem_reach_of_mem {name : String} (member : name ∈ names) : name ∈ graph.reach names :=
  (graph.explores [] names).subset.2 member

theorem next_mem_reach {name next : String} (found : name ∈ graph.reach names)
    (edge : next ∈ graph.next name) : next ∈ graph.reach names :=
  (graph.explores [] names).next_mem found List.not_mem_nil edge

/-- With more to start from and more edges, no less is reached. -/
theorem reach_subset {others : List String} (start : names ⊆ others)
    (edges : ∀ name, graph.next name ⊆ other.next name) : graph.reach names ⊆ other.reach others := by
  intro name reached
  apply forall_mem_reach _ _ name reached
  · intro name found next edge
    exact next_mem_reach found (edges name edge)
  · intro name member
    exact mem_reach_of_mem (start member)

def without (graph : Graph) (name : String) : Graph :=
  ⟨graph.nodes.map fun node => (node.1, node.2.filter (· ≠ name))⟩

theorem next_without (graph : Graph) (name node : String) :
    (graph.without name).next node = (graph.next node).filter (· ≠ name) := by
  obtain ⟨nodes⟩ := graph
  unfold next without
  induction nodes with
  | nil => rfl
  | cons first rest ih =>
    obtain ⟨key, edges⟩ := first
    by_cases same : node = key
    · simp [same]
    · have differ : (node == key) = false := by simpa using same
      simpa only [List.map_cons, List.lookup_cons, differ] using ih

theorem Explores.filter {name : String} (run : graph.Explores seen pending found)
    (isolated : graph.next name = []) :
    (graph.without name).Explores (seen.filter (· ≠ name)) (pending.filter (· ≠ name)) (found.filter (· ≠ name)) := by
  induction run with
  | done => exact .done
  | @known seen first pending found member rest ih =>
    by_cases same : first = name
    · rwa [List.filter_cons_of_neg (by simpa using same)]
    · rw [List.filter_cons_of_pos (by simpa using same)]
      exact .known (by simpa [member] using same) ih
  | @fresh seen first pending found unseen rest ih =>
    rw [List.filter_append, List.filter_append] at ih
    by_cases same : first = name
    · subst same
      simpa [isolated] using ih
    · have still : first ∉ seen.filter (· ≠ name) := fun member => unseen (List.mem_filter.mp member).1
      rw [List.filter_cons_of_pos (by simpa using same), ← next_without] at ih
      rw [List.filter_cons_of_pos (by simpa using same)]
      exact .fresh still ih

/-- A name without edges can be left out of the names to start from as well as of what is reached. -/
theorem filter_reach {name : String} (isolated : graph.next name = []) (names : List String) :
    (graph.reach names).filter (· ≠ name) = (graph.without name).reach (names.filter (· ≠ name)) :=
  ((graph.explores [] names).filter isolated).explore_eq.symm

end Graph

end QueryTypes
