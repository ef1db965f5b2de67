import QueryTypes.Text.Blank

namespace QueryTypes.Text

theorem not_mem_of_mem_lines {text line : List Char} (listed : line ∈ lines text) : '\n' ∉ line := by
  fun_induction lines text generalizing line with
  | case1 => cases listed
  | case2 text ih =>
    rcases List.mem_cons.mp listed with rfl | later
    · exact List.not_mem_nil
    · exact ih later
  | case3 text ih =>
    rcases List.mem_cons.mp listed with rfl | later
    · exact List.not_mem_nil
    · exact ih later
  | case4 c text notFeed notReturn none ih =>
    rw [List.mem_singleton.mp listed, List.mem_singleton]
    rintro rfl
    exact notFeed rfl
  | case5 c text notFeed notReturn first rest split ih =>
    rcases List.mem_cons.mp listed with rfl | later
    · rw [List.mem_cons, not_or]
      refine ⟨?_, ih (split ▸ List.mem_cons_self)⟩
      rintro rfl
      exact notFeed rfl
    · exact ih (split ▸ List.mem_cons_of_mem _ later)

theorem mem_of_mem_lines {text line : List Char} {c : Char} (listed : line ∈ lines text) (member : c ∈ line) :
    c ∈ text := by
  fun_induction lines text generalizing line with
  | case1 => cases listed
  | case2 text ih =>
    rcases List.mem_cons.mp listed with rfl | listed
    · cases member
    · exact List.mem_cons_of_mem _ (ih listed member)
  | case3 text ih =>
    rcases List.mem_cons.mp listed with rfl | listed
    · cases member
    · exact List.mem_cons_of_mem _ (List.mem_cons_of_mem _ (ih listed member))
  | case4 d text _ _ none ih =>
    rw [List.mem_singleton.mp listed, List.mem_singleton] at member
    rw [member]
    exact List.mem_cons_self
  | case5 d text _ _ first others found ih =>
    rw [found] at ih
    rcases List.mem_cons.mp listed with rfl | listed
    · rcases List.mem_cons.mp member with rfl | member
      · exact List.mem_cons_self
      · exact List.mem_cons_of_mem _ (ih List.mem_cons_self member)
    · exact List.mem_cons_of_mem _ (ih (List.mem_cons_of_mem _ listed) member)

theorem lines_ne_nil {text : List Char} (filled : text ≠ []) : lines text ≠ [] := by
  fun_cases lines text <;> simp_all

def onOneLine (text : List Char) : List Char := text.filter (· != '\n')

@[simp] theorem onOneLine_append (text rest : List Char) :
    onOneLine (text ++ rest) = onOneLine text ++ onOneLine rest := List.filter_append ..

theorem onOneLine_cons {c : Char} (shown : c ≠ '\n') (rest : List Char) :
    onOneLine (c :: rest) = c :: onOneLine rest := by
  simp [onOneLine, shown]

theorem onOneLine_of_not_mem {text : List Char} (whole : '\n' ∉ text) : onOneLine text = text := by
  apply List.filter_eq_self.mpr
  intro c member
  simp only [bne_iff_ne, ne_eq]
  rintro rfl
  exact whole member

/-- Without a carriage return, lines end at line feeds only. -/
theorem flatten_lines {text : List Char} (clean : '\r' ∉ text) : (lines text).flatten = onOneLine text := by
  fun_induction lines text with
  | case1 => rfl
  | case2 text ih =>
    rw [List.flatten_cons, ih fun member => clean (List.mem_cons_of_mem _ member)]
    rfl
  | case3 text ih => exact absurd List.mem_cons_self clean
  | case4 c text notFeed notReturn none ih =>
    have rest := ih fun member => clean (List.mem_cons_of_mem _ member)
    rw [none] at rest
    rw [onOneLine_cons notFeed, ← rest]
    rfl
  | case5 c text notFeed notReturn line others found ih =>
    have rest := ih fun member => clean (List.mem_cons_of_mem _ member)
    rw [found] at rest
    rw [onOneLine_cons notFeed, ← rest]
    rfl

end QueryTypes.Text
