import Haml.Text.Basic

/-! The lines of a text that is put together from pieces. -/
namespace Haml.Text

theorem splitWhen_ne_nil (cut : Char → Bool) (t : Text) : splitWhen cut t ≠ [] := by
  cases t with
  | nil => simp [splitWhen]
  | cons x t =>
    rw [splitWhen]
    split
    · simp
    · split <;> simp

theorem lines_break (t : Text) : lines ('\n' :: t) = [] :: lines t := rfl

theorem lines_cons {x : Char} (hx : x ≠ '\n') {t l : Text} {ls : List Text}
    (h : lines t = l :: ls) : lines (x :: t) = (x :: l) :: ls := by
  rw [lines, splitWhen, if_neg (by simpa using hx), ← lines, h]

/-- The lines before a line break and those after it. -/
theorem lines_append_break (t u : Text) : lines (t ++ '\n' :: u) = lines t ++ lines u := by
  induction t with
  | nil => rfl
  | cons x t ih =>
    by_cases hx : x = '\n'
    · subst hx
      rw [List.cons_append, lines_break, lines_break, ih]
      rfl
    · obtain ⟨l, ls, h⟩ := List.exists_cons_of_ne_nil (splitWhen_ne_nil (· == '\n') t)
      have hright : lines (t ++ '\n' :: u) = l :: (ls ++ lines u) := by
        rw [ih, lines, h]
        rfl
      rw [List.cons_append, lines_cons hx hright, lines_cons hx h]
      rfl

theorem lines_of_not_mem {l : Text} (h : '\n' ∉ l) : lines l = [l] := by
  induction l with
  | nil => rfl
  | cons x l ih =>
    rw [List.mem_cons, not_or] at h
    exact lines_cons (Ne.symm h.1) (ih h.2)

theorem unlines_cons_cons (l k : Text) (ls : List Text) :
    unlines (l :: k :: ls) = l ++ '\n' :: unlines (k :: ls) := by
  simp [unlines, List.intercalate_cons_cons]

theorem lines_unlines {ls : List Text} (hne : ls ≠ []) (h : ∀ l ∈ ls, '\n' ∉ l) :
    lines (unlines ls) = ls := by
  induction ls with
  | nil => exact absurd rfl hne
  | cons l ls ih =>
    have hl := lines_of_not_mem (h l (by simp))
    cases ls with
    | nil =>
      simp only [unlines, List.intercalate_singleton]
      exact hl
    | cons l' ls =>
      have hrest := ih (by simp) fun k hk => h k (by simp [hk])
      simp only [unlines, List.intercalate_cons_cons, List.append_assoc,
        List.singleton_append] at hrest ⊢
      rw [lines_append_break, hl, hrest]
      rfl

theorem unlines_lines (t : Text) : unlines (lines t) = t := by
  induction t with
  | nil => rfl
  | cons x t ih =>
    obtain ⟨l, ls, h⟩ := List.exists_cons_of_ne_nil (splitWhen_ne_nil (· == '\n') t)
    rw [lines, h] at ih
    by_cases hx : x = '\n'
    · subst hx
      rw [lines_break, lines, h, unlines, List.intercalate_cons_cons]
      exact congrArg ('\n' :: ·) ih
    · rw [lines_cons hx h]
      cases ls with
      | nil => simpa [unlines] using ih
      | cons l' ls => simpa [unlines, List.intercalate_cons_cons] using ih

theorem not_mem_of_mem_lines {t l : Text} (h : l ∈ lines t) : '\n' ∉ l := by
  induction t generalizing l with
  | nil =>
    rw [List.mem_singleton.mp h]
    nofun
  | cons x t ih =>
    by_cases hx : x = '\n'
    · subst hx
      rw [lines_break, List.mem_cons] at h
      rcases h with rfl | h
      · nofun
      · exact ih h
    · obtain ⟨k, ks, hk⟩ := List.exists_cons_of_ne_nil (splitWhen_ne_nil (· == '\n') t)
      rw [lines_cons hx hk, List.mem_cons] at h
      rcases h with rfl | h
      · rw [List.mem_cons, not_or]
        exact ⟨Ne.symm hx, ih (by rw [lines, hk]; simp)⟩
      · exact ih (by rw [lines, hk]; simp [h])

theorem within_unlines {ls : List Text} {l : Text} (h : l ∈ ls) : l <:+: unlines ls := by
  induction ls with
  | nil => cases h
  | cons k ls ih =>
    cases ls with
    | nil =>
      obtain rfl := List.mem_singleton.mp h
      have hsingle : unlines [l] = l := List.intercalate_singleton ..
      exact hsingle.symm ▸ List.infix_refl l
    | cons k' ls =>
      rw [unlines, List.intercalate_cons_cons, List.append_assoc]
      rcases List.mem_cons.mp h with rfl | h
      · exact (List.prefix_append ..).isInfix
      · exact (ih h).trans ((List.suffix_append ..).trans (List.suffix_append ..)).isInfix

theorem within_of_mem_lines {t l : Text} (h : l ∈ lines t) : l <:+: t := by
  have hin := within_unlines h
  rwa [unlines_lines] at hin

/-- The place after `t` is the start of a line. -/
def EndsInBreak (t : Text) : Prop := t = [] ∨ t.getLast? = some '\n'

theorem exists_lines_append {t : Text} (h : EndsInBreak t) (u : Text) :
    ∃ before, lines (t ++ u) = before ++ lines u := by
  obtain rfl | hlast := h
  · exact ⟨[], rfl⟩
  · obtain ⟨t', rfl⟩ := List.getLast?_eq_some_iff.mp hlast
    rw [List.append_assoc, List.singleton_append, lines_append_break]
    exact ⟨_, rfl⟩

end Haml.Text
