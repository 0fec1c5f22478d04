import Haml.Text.LowerCase
import Haml.Text.Word
import Mathlib.Data.Bool.AllAny

/-!
Keywords in any letter case. The lower case of a text is a word of certain ASCII letters only if the
text is that word in upper and lower case letters of ASCII: no other character has such a lower
case.
-/
namespace Haml.Text

def keywordLetters : Text := "aeflnorstu".toList

/-- No letter beyond ASCII has the lower case of a letter of the keywords: the table leads to ASCII
only at the Kelvin sign, whose lower case is `k`. -/
theorem caseRows_beyond_ascii {row : CaseRow} (h : row ∈ caseRows) :
    128 ≤ row.first + row.shift ∨ row.first = row.last ∧ row.first + row.shift = 107 := by
  have hall : ∀ row ∈ caseRows,
      128 ≤ row.first + row.shift ∨ row.first = row.last ∧ row.first + row.shift = 107 := by
    decide +kernel
  exact hall row h

theorem not_mem_keywordLetters {c : Char} (h : c.toNat < 97 ∨ 128 ≤ c.toNat) :
    c ∉ keywordLetters := by
  have hall : ∀ y ∈ keywordLetters, 97 ≤ y.toNat ∧ y.toNat < 128 :=
    List.all_iff_forall_prop.mp (by decide)
  intro hc
  have := hall c hc
  omega

theorem toNat_ofNat_beyond_ascii {n : Nat} (h : 128 ≤ n) :
    (Char.ofNat n).toNat < 97 ∨ 128 ≤ (Char.ofNat n).toNat := by
  by_cases hn : n.isValidChar
  · have : (Char.ofNat n).toNat = n := by
      rw [Char.ofNat, dif_pos hn]
      rfl
    omega
  · exact .inl (by rw [Char.ofNat, dif_neg hn]; decide)

theorem lowerChar_beyond_ascii {c : Char} (h : 128 ≤ c.toNat) :
    ∃ y t, lowerChar c = y :: t ∧ y ∉ keywordLetters := by
  unfold lowerChar
  rw [if_neg (by omega)]
  split
  · exact ⟨_, _, rfl, by decide⟩
  · split
    · next row hrow =>
      refine ⟨_, _, rfl, ?_⟩
      have hcovers := List.find?_some hrow
      simp only [CaseRow.covers, Bool.and_eq_true, decide_eq_true_eq] at hcovers
      obtain hbeyond | ⟨hone, hkelvin⟩ := caseRows_beyond_ascii (List.mem_of_find?_eq_some hrow)
      · exact not_mem_keywordLetters (toNat_ofNat_beyond_ascii (by omega))
      · have hk : (c.toNat + row.shift).toNat = 107 := by omega
        rw [hk]
        decide
    · exact ⟨_, _, rfl, not_mem_keywordLetters (.inr h)⟩

/-- A text whose lower case is made of letters of the keywords is ASCII, so its lower case is that
of its characters. -/
theorem lowerFrom_eq_map {w : Text} {cased : Bool}
    (h : ∀ y ∈ lowerFrom cased w, y ∈ keywordLetters) : lowerFrom cased w = w.map Char.toLower := by
  induction w generalizing cased with
  | nil => rfl
  | cons c w ih =>
    simp only [lowerFrom, List.mem_append] at h
    rw [lowerFrom, ih fun y hy => h y (.inr hy)]
    have hsigma : c ≠ 'Σ' := by
      rintro rfl
      have hmem := h _ (.inl (by rw [if_pos rfl]; exact List.mem_singleton_self _))
      revert hmem
      split <;> decide
    have hascii : c.toNat < 128 := by
      apply Nat.lt_of_not_le
      intro hc
      obtain ⟨y, t, hy, hnot⟩ := lowerChar_beyond_ascii hc
      exact hnot (h y (.inl (by simp [hsigma, hy])))
    simp [hsigma, lowerChar, hascii]

theorem lowerFrom_of_ascii {w : Text} {cased : Bool} (h : ∀ x ∈ w, x.toNat < 128) :
    lowerFrom cased w = w.map Char.toLower := by
  induction w generalizing cased with
  | nil => rfl
  | cons c w ih =>
    have hc := h c (by simp)
    have hsigma : c ≠ 'Σ' := by
      rintro rfl
      exact absurd hc (by decide)
    rw [lowerFrom, ih fun y hy => h y (by simp [hy])]
    simp [hsigma, lowerChar, hc]

/-- A character whose ASCII lower case is a letter of the keywords is an ASCII letter. -/
theorem word_of_toLower_mem {c : Char} (h : c.toLower ∈ keywordLetters) :
    c.toNat < 128 ∧ isWord c = true ∧ isDigit c = false := by
  have hall : ∀ y ∈ keywordLetters, y.toNat < 128 ∧ isWord y = true ∧ isDigit y = false :=
    List.all_iff_forall_prop.mp (by decide)
  by_cases hup : c.isUpper = true
  · have hrange : 65 ≤ c.toNat ∧ c.toNat ≤ 90 := by
      have hval : 'A'.val ≤ c.val ∧ c.val ≤ 'Z'.val := of_decide_eq_true hup
      rwa [UInt32.le_iff_toNat_le, UInt32.le_iff_toNat_le] at hval
    have hdigit : c.isDigit = false := by
      simp only [Char.isDigit, UInt32.le_iff_toNat_le, Bool.and_eq_false_iff, decide_eq_false_iff_not]
      have : '9'.val.toNat = 57 := rfl
      have : c.toNat = c.val.toNat := rfl
      omega
    have hascii : c.toNat < 128 := by omega
    have halpha : c.isAlpha = true := Bool.or_eq_true_iff.mpr (.inl hup)
    simp [isWord, isLetter, isDigit, hascii, hdigit, Char.isAlphanum, halpha]
  · have hsame : c.toLower = c := by
      unfold Char.toLower
      rw [dif_neg fun hrange => hup (decide_eq_true hrange)]
    rw [hsame] at h
    exact hall c h

/-- The lower case of a text is a word of these letters only if the text is that word in ASCII. -/
theorem lower_eq_iff {w name : Text} (hname : ∀ y ∈ name, y ∈ keywordLetters) :
    w.lower = name ↔ w.map Char.toLower = name := by
  constructor
  · intro h
    rw [← h]
    exact (lowerFrom_eq_map fun y hy => hname y (by rwa [← h])).symm
  · intro h
    rw [← h]
    refine lowerFrom_of_ascii fun x hx => ?_
    have hlower : x.toLower ∈ name := h ▸ List.mem_map_of_mem hx
    exact (word_of_toLower_mem (hname _ hlower)).1

end Haml.Text
