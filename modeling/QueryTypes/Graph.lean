namespace QueryTypes

structure Graph where
  nodes : List (String × List String)

namespace Graph

def next (graph : Graph) (name : String) : List String := (graph.nodes.lookup name).getD []

def unseen (graph : Graph) (seen : List String) : Nat :=
  graph.nodes.countP fun node => node.1 ∉ seen

theorem unseen_append_le (graph : Graph) (seen : List String) (name : String) :
    graph.unseen (seen ++ [name]) ≤ graph.unseen seen := by
  apply List.countP_mono_left
  intro node _
  simp only [List.mem_append, not_or, decide_eq_true_eq]
  exact And.left

theorem unseen_append_lt (graph : Graph) (seen : List String) (name : String)
    (fresh : name ∉ seen) (edges : graph.next name ≠ []) :
    graph.unseen (seen ++ [name]) < graph.unseen seen := by
  obtain ⟨nodes⟩ := graph
  induction nodes with
  | nil => exact absurd rfl edges
  | cons node rest ih =>
    obtain ⟨key, names⟩ := node
    by_cases same : name = key
    · have le := unseen_append_le ⟨rest⟩ seen name
      subst same
      simp only [unseen, List.countP_cons, List.mem_append, List.mem_singleton, or_true,
        not_true_eq_false, decide_false, fresh, not_false_eq_true, decide_true] at le ⊢
      simp only [Bool.false_eq_true, ↓reduceIte, Nat.add_zero]
      exact Nat.lt_succ_of_le le
    · have other : (name == key) = false := by simpa using same
      have lt := ih (by simpa only [next, List.lookup_cons, other] using edges)
      simp only [unseen, List.countP_cons, List.mem_append, List.mem_singleton,
        Ne.symm same, or_false] at lt ⊢
      exact Nat.add_lt_add_right lt _

/-- The names that can be reached from the pending ones, depth first, each when it is first met,
    behind those that were seen before. -/
def explore (graph : Graph) (seen : List String) : List String → List String
  | [] => seen
  | name :: pending =>
    if _fresh : name ∈ seen then explore graph seen pending
    else explore graph (seen ++ [name]) (graph.next name ++ pending)
termination_by pending => (graph.unseen seen, pending.length)
decreasing_by
  · exact Prod.Lex.right _ (Nat.lt_succ_self _)
  · by_cases edges : graph.next name = []
    · rw [edges]
      rcases Nat.lt_or_eq_of_le (graph.unseen_append_le seen name) with lt | eq
      · exact Prod.Lex.left _ _ lt
      · rw [eq]
        exact Prod.Lex.right _ (Nat.lt_succ_self _)
    · exact Prod.Lex.left _ _ (graph.unseen_append_lt seen name _fresh edges)

def reach (graph : Graph) (names : List String) : List String := graph.explore [] names

end Graph

end QueryTypes
