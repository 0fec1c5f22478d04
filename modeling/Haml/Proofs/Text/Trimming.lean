import Haml.Text.Blank
import Mathlib.Data.List.Infix

/-! Trimming of texts: what it leaves, and where it stops; what follows a leading piece. -/
namespace Haml.Text

theorem isBlank_of_isIndent {x : Char} (h : isIndent x = true) : isBlank x = true := by
  simp only [isIndent, Bool.or_eq_true, beq_iff_eq] at h
  rcases h with rfl | rfl <;> decide

theorem trimRight_append {u : Text} {y : Char} (hy : isBlank y = false) (t : Text) :
    trimRight (u ++ [y] ++ t) = u ++ [y] ++ trimRight t := by
  simp only [trimRight, List.reverse_append, List.reverse_cons, List.reverse_nil,
    List.nil_append, List.singleton_append, List.dropWhile_append]
  split
  · next h => simp [List.isEmpty_iff.mp h, hy]
  · simp

theorem trimRight_concat {u : Text} {y : Char} (hy : isBlank y = false) :
    trimRight (u ++ [y]) = u ++ [y] := by
  simp [trimRight, hy]

theorem trimRight_cons (x : Char) (t : Text) : trimRight (x :: t) =
    if (trimRight t).isEmpty then trimRight [x] else x :: trimRight t := by
  simp only [trimRight, List.reverse_cons, List.dropWhile_append, List.isEmpty_reverse]
  split
  · rfl
  · simp

theorem trimRight_initial (t : Text) : trimRight t <+: t := by
  have h := List.dropWhile_suffix (l := t.reverse) isBlank
  rwa [← List.reverse_prefix, List.reverse_reverse] at h

/-- Only blanks are trimmed away. -/
theorem mem_trimRight {x : Char} {t : Text} (hx : isBlank x = false) (h : x ∈ t) :
    x ∈ trimRight t := by
  have hsplit := List.takeWhile_append_dropWhile (p := isBlank) (l := t.reverse)
  rw [← List.mem_reverse, ← hsplit, List.mem_append] at h
  rw [trimRight, List.mem_reverse]
  rcases h with h | h
  · have hblank := List.all_eq_true.mp List.all_takeWhile x h
    rw [hx] at hblank
    cases hblank
  · exact h

theorem trim_within (t : Text) : trim t <:+: t :=
  (trimRight_initial _).isInfix.trans (List.dropWhile_suffix _).isInfix

theorem mem_of_mem_trim {x : Char} {t : Text} (h : x ∈ trim t) : x ∈ t := (trim_within t).subset h

/-- A trimmed text does not begin with a blank. -/
theorem isBlank_of_trim {u t : Text} {x : Char} (h : trim u = x :: t) : isBlank x = false := by
  obtain ⟨blanks, hb⟩ := trimRight_initial (trimLeft u)
  rw [show trimRight (trimLeft u) = x :: t from h] at hb
  have hhead := List.head?_dropWhile_not isBlank u
  rw [show u.dropWhile isBlank = x :: (t ++ blanks) from hb.symm] at hhead
  simpa using hhead

theorem trimLeft_cons {x : Char} (hx : isBlank x = false) (t : Text) :
    trimLeft (x :: t) = x :: t := by
  simp [trimLeft, hx]

theorem trim_cons {x : Char} (hx : isBlank x = false) (t : Text) :
    trim (x :: t) = x :: trimRight t := by
  rw [trim, trimLeft_cons hx]
  exact trimRight_append (u := []) hx t

/-- A text that was trimmed is not trimmed away. -/
theorem trim_ne_nil {u t : Text} {x : Char} (h : trim u = x :: t) : trim (x :: t) ≠ [] := by
  rw [trim_cons (isBlank_of_trim h)]
  exact List.cons_ne_nil _ _

theorem trimRight_append_blank {b : Text} (hb : ∀ x ∈ b, isBlank x = true) (t : Text) :
    trimRight (t ++ b) = trimRight t := by
  rw [trimRight, List.reverse_append,
    List.dropWhile_append_of_pos fun x hx => hb x (List.mem_reverse.mp hx)]
  rfl

theorem trimRight_append_of_ne_nil {t : Text} (u : Text) (h : trimRight t ≠ []) :
    trimRight (u ++ t) = u ++ trimRight t := by
  have hne : t.reverse.dropWhile isBlank ≠ [] := fun he => h (by rw [trimRight, he]; rfl)
  rw [trimRight, List.reverse_append, List.dropWhile_append, if_neg (by simpa using hne)]
  simp [trimRight]

/-- What is trimmed away at the end are blanks. -/
theorem exists_trimRight_append (t : Text) :
    ∃ b, (∀ x ∈ b, isBlank x = true) ∧ t = trimRight t ++ b := by
  have hsplit := List.takeWhile_append_dropWhile (p := isBlank) (l := t.reverse)
  refine ⟨(t.reverse.takeWhile isBlank).reverse, fun x hx => ?_, ?_⟩
  · exact List.all_eq_true.mp List.all_takeWhile x (List.mem_reverse.mp hx)
  · rw [trimRight, ← List.reverse_append, hsplit, List.reverse_reverse]

theorem trimRight_append_trimRight (u t : Text) :
    trimRight (u ++ trimRight t) = trimRight (u ++ t) := by
  obtain ⟨b, hb, ht⟩ := exists_trimRight_append t
  conv_rhs => rw [ht, ← List.append_assoc, trimRight_append_blank hb]

theorem trim_blank_append {b : Text} (hb : ∀ x ∈ b, isBlank x = true) (t : Text) :
    trim (b ++ t) = trim t := by
  rw [trim, trimLeft, List.dropWhile_append_of_pos hb]
  rfl

theorem trim_append_blank {b : Text} (hb : ∀ x ∈ b, isBlank x = true) (t : Text) :
    trim (t ++ b) = trim t := by
  have hnil : b.dropWhile isBlank = [] := by
    have h : (b ++ []).dropWhile isBlank = [].dropWhile isBlank := List.dropWhile_append_of_pos hb
    rwa [List.append_nil] at h
  rw [trim, trimLeft, List.dropWhile_append]
  split
  · next h => rw [hnil, trim, trimLeft, List.isEmpty_iff.mp h]
  · rw [trimRight_append_blank hb]
    rfl

theorem trim_trimRight (t : Text) : trim (trimRight t) = trim t := by
  obtain ⟨b, hb, ht⟩ := exists_trimRight_append t
  conv_rhs => rw [ht, trim_append_blank hb]

/-- What is left of a text that is trimmed at both ends stands in it however it is trimmed. -/
theorem trim_within_trimRight (t : Text) : trim t <:+: trimRight t := by
  obtain ⟨b, hb⟩ := List.dropWhile_suffix (l := t) isBlank
  by_cases h : trimRight (trimLeft t) = []
  · rw [trim, h]
    exact List.nil_infix
  · have happend := trimRight_append_of_ne_nil b h
    rw [trimLeft, hb] at happend
    rw [happend]
    exact (List.suffix_append b _).isInfix

theorem after?_append (s t : Text) : after? s (s ++ t) = some t := by
  induction s with
  | nil => rfl
  | cons x s ih => simp [after?, ih]

theorem eq_append_of_after? {s t r : Text} (h : after? s t = some r) : t = s ++ r := by
  induction s generalizing t with
  | nil => exact Option.some.inj h
  | cons x s ih =>
    cases t with
    | nil => simp [after?] at h
    | cons y t =>
      simp only [after?] at h
      split at h
      · next hxy => rw [ih h, hxy, List.cons_append]
      · cases h

end Haml.Text
