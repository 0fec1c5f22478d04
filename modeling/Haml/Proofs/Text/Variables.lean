import Haml.InlineVariable
import Haml.Proofs.Text.Trimming

/-!
Inline variables in texts. Where no mark stands before a brace there are none, and nothing is
replaced. Whatever is replaced, a text that is not blank does not become blank, and one that does
not begin with a blank still does not.
-/
namespace Haml.InlineVariable

variable {b : Bool} {before : Option Char} {x : Char} {t body rest : Text}

theorem closing?_eq_some {t r : Text} :
    closing? t = some r ↔ t.dropWhile Text.isWhite = '}' :: r := by
  unfold closing?
  split
  · next h => simp [h]
  · next h => simpa using fun he => h r he

/-! ## Texts without variables -/

/-- No mark of an inline variable stands before a brace. -/
def Unmarked (b : Bool) (t : Text) : Prop := ∀ x, isMark b x = true → ¬ [x, '{'] <:+: t

theorem unmarked_of_not_mem (h : '{' ∉ t) : Unmarked b t :=
  fun _ _ hin => h (hin.subset (by simp))

theorem Unmarked.tail (h : Unmarked b (x :: t)) : Unmarked b t :=
  fun y hy hin => h y hy (hin.trans (List.suffix_cons x t).isInfix)

theorem start?_eq_none (h : Unmarked b t) : start? b t = none := by
  unfold start?
  split
  · next x rest =>
    split
    · next hx => exact absurd ⟨[], rest, rfl⟩ (h x hx)
    · rfl
  · rfl

theorem expandFrom_eq (h : Unmarked b t) : expandFrom b before t = t := by
  induction t generalizing before with
  | nil => rw [expandFrom]
  | cons x t ih =>
    have hnone : (if before = some '\\' then none else start? b (x :: t)) = none := by
      split
      · rfl
      · exact start?_eq_none h
    rw [expandFrom]
    split
    · next heq => rw [hnone] at heq; cases heq
    · rw [ih h.tail]

theorem unescape_eq (h : Unmarked b t) : unescape b t = t := by
  induction t with
  | nil => rw [unescape]
  | cons x t ih =>
    have hnone : (if x = '\\' then start? b t else none) = none := by
      split
      · exact start?_eq_none h.tail
      · rfl
    rw [unescape]
    split
    · next heq => rw [hnone] at heq; cases heq
    · rw [ih h.tail]

theorem replace_eq (h : Unmarked b t) : replace b t = t := by
  rw [replace, expandFrom_eq h, unescape_eq h]

/-! ## Texts that are not blank -/

/-- What is taken for a variable begins with its mark. -/
theorem exists_taken (h : start? b t = some (body, rest)) :
    ∃ y u, t.take (t.length - rest.length) = y :: u ∧ Text.isBlank y = false := by
  have hlt := length_start?_lt h
  unfold start? at h
  split at h
  · next y u =>
    split at h
    · next hy =>
      have hblank : Text.isBlank y = false := by
        simp only [isMark, Bool.or_eq_true, beq_iff_eq, Bool.and_eq_true] at hy
        rcases hy with rfl | ⟨_, rfl⟩ <;> decide
      obtain ⟨k, hk⟩ := Nat.exists_eq_add_of_lt hlt
      have hlen : (y :: '{' :: u).length - rest.length = k + 1 := by omega
      rw [hlen, List.take_succ_cons]
      exact ⟨y, _, rfl, hblank⟩
    · cases h
  · cases h

/-- A text that begins with something begins with something after its variables are replaced. -/
theorem replace_cons (hx : Text.isBlank x = false) (t : Text) :
    ∃ y u, replace b (x :: t) = y :: u ∧ Text.isBlank y = false := by
  have hexpand : ∃ y u, expandFrom b none (x :: t) = y :: u ∧ Text.isBlank y = false := by
    rw [expandFrom]
    split
    · exact ⟨'{', _, rfl, by decide⟩
    · exact ⟨x, _, rfl, hx⟩
  obtain ⟨y, u, hyu, hy⟩ := hexpand
  rw [replace, hyu, unescape]
  split
  · next body rest h =>
    split at h
    · obtain ⟨m, v, hm, hblank⟩ := exists_taken h
      rw [hm, List.cons_append]
      exact ⟨m, _, rfl, hblank⟩
    · cases h
  · exact ⟨y, _, rfl, hy⟩

end Haml.InlineVariable
