import Haml.Proofs.Text.Lines
import Haml.Proofs.Text.Trimming
import Haml.Text.Margin

/-!
Margins. Lines that stand behind a margin, some of them directly behind it, have this margin in
common, and taking it away gives them back. Putting a margin before all lines of a text is done by
putting it before the text and behind each of its line breaks.
-/
namespace Haml.Text

variable {margin : Text} {bs : List Text}

/-! ## The common margin -/

theorem commonStart_append (margin s t : Text) :
    commonStart (margin ++ s) (margin ++ t) = margin ++ commonStart s t := by
  induction margin with
  | nil => rfl
  | cons x margin ih => simp [commonStart, ih]

theorem commonStart_nil (s : Text) : commonStart s [] = [] := by
  cases s <;> rfl

theorem foldl_commonStart_append (margin m : Text) (ms : List Text) :
    (ms.map (margin ++ ·)).foldl commonStart (margin ++ m) = margin ++ ms.foldl commonStart m := by
  induction ms generalizing m with
  | nil => rfl
  | cons k ms ih => rw [List.map_cons, List.foldl_cons, commonStart_append, ih, List.foldl_cons]

theorem foldl_commonStart_nil {m : Text} {ms : List Text} (h : [] ∈ m :: ms) :
    ms.foldl commonStart m = [] := by
  induction ms generalizing m with
  | nil => exact (List.mem_singleton.mp h).symm
  | cons k ms ih =>
    rw [List.foldl_cons]
    apply ih
    simp only [List.mem_cons] at h ⊢
    rcases h with rfl | rfl | h
    · exact .inl rfl
    · exact .inl (commonStart_nil m).symm
    · exact .inr h

/-- A line behind a margin. Nothing stands before an empty line. -/
def behind (margin b : Text) : Text := if b.isEmpty then [] else margin ++ b

/-- The line is empty, or there is something else on it than spaces and tabs. -/
def Filled (b : Text) : Prop := b = [] ∨ b.all isIndent = false

def Flush (b : Text) : Prop := ∃ x u, b = x :: u ∧ isIndent x = false

theorem behind_of_black (margin : Text) {b : Text} (h : b.all isIndent = false) :
    behind margin b = margin ++ b ∧ (behind margin b).all isIndent = false := by
  have hbehind : behind margin b = margin ++ b := by
    cases b with
    | nil => cases h
    | cons x b => rfl
  rw [hbehind, List.all_append, h, Bool.and_false]
  exact ⟨rfl, rfl⟩

/-- The margins of the lines, as far as the lines are not blank. -/
theorem margins_behind (hmargin : ∀ x ∈ margin, isIndent x = true) (hbs : ∀ b ∈ bs, Filled b) :
    ((bs.map (behind margin)).filter fun l => !l.all isIndent).map (·.takeWhile isIndent) =
      ((bs.filter fun b => !b.all isIndent).map (·.takeWhile isIndent)).map (margin ++ ·) := by
  induction bs with
  | nil => rfl
  | cons b bs ih =>
    have hrest := ih fun k hk => hbs k (List.mem_cons_of_mem b hk)
    rcases hbs b (by simp) with rfl | hblack
    · exact hrest
    · obtain ⟨heq, hall⟩ := behind_of_black margin hblack
      rw [List.map_cons, List.filter_cons_of_pos (by simp [hall]),
        List.filter_cons_of_pos (by simp [hblack]), List.map_cons, hrest, heq,
        List.takeWhile_append_of_pos hmargin]
      rfl

theorem commonMargin_behind (hmargin : ∀ x ∈ margin, isIndent x = true)
    (hbs : ∀ b ∈ bs, Filled b) (hflush : ∃ b ∈ bs, Flush b) :
    commonMargin (bs.map (behind margin)) = margin := by
  -- the line directly behind the margin ends all that the others have in common beyond it
  have hnil : [] ∈ (bs.filter fun b => !b.all isIndent).map (·.takeWhile isIndent) := by
    obtain ⟨b, hb, x, u, rfl, hx⟩ := hflush
    exact List.mem_map.mpr ⟨x :: u, List.mem_filter.mpr ⟨hb, by simp [hx]⟩, by simp [hx]⟩
  rw [commonMargin, margins_behind hmargin hbs]
  cases hms : (bs.filter fun b => !b.all isIndent).map (·.takeWhile isIndent) with
  | nil =>
    rw [hms] at hnil
    cases hnil
  | cons m ms =>
    rw [hms] at hnil
    rw [List.map_cons]
    show (ms.map (margin ++ ·)).foldl commonStart (margin ++ m) = margin
    rw [foldl_commonStart_append, foldl_commonStart_nil hnil, List.append_nil]

theorem not_mem_behind {x : Char} {b : Text} (hmargin : x ∉ margin) (hb : x ∉ b) :
    x ∉ behind margin b := by
  rw [behind]
  split
  · simp
  · exact fun h => (List.mem_append.mp h).elim hmargin hb

theorem break_not_mem (hmargin : ∀ x ∈ margin, isIndent x = true) : '\n' ∉ margin :=
  fun h => absurd (hmargin '\n' h) (by decide)

/-- Lines behind a margin without that margin. -/
theorem dedent_behind (hmargin : ∀ x ∈ margin, isIndent x = true)
    (hbs : ∀ b ∈ bs, '\n' ∉ b ∧ Filled b) (hflush : ∃ b ∈ bs, Flush b) :
    dedent (unlines (bs.map (behind margin))) = unlines bs := by
  have hne : bs.map (behind margin) ≠ [] := by
    obtain ⟨b, hb, -⟩ := hflush
    exact List.ne_nil_of_mem (List.mem_map_of_mem hb)
  have hunbroken : ∀ l ∈ bs.map (behind margin), '\n' ∉ l := by
    intro l hl
    obtain ⟨b, hb, rfl⟩ := List.mem_map.mp hl
    exact not_mem_behind (break_not_mem hmargin) (hbs b hb).1
  have hkept : (bs.map (behind margin)).map (fun l => if l.all isIndent then [] else l) =
      bs.map (behind margin) := by
    rw [List.map_map]
    refine List.map_congr_left fun b hb => ?_
    rcases (hbs b hb).2 with rfl | hblack
    · rfl
    · rw [Function.comp_apply, (behind_of_black margin hblack).2]
      rfl
  have htaken : (bs.map (behind margin)).map (fun l => (after? margin l).getD l) = bs := by
    rw [List.map_map]
    refine List.map_id'' (fun b => ?_) bs
    rw [Function.comp_apply, behind]
    split
    · next hempty =>
      rw [List.isEmpty_iff.mp hempty]
      cases margin <;> rfl
    · rw [after?_append, Option.getD_some]
  rw [dedent, lines_unlines hne hunbroken, hkept,
    commonMargin_behind hmargin (fun b hb => (hbs b hb).2) hflush, htaken]

/-! ## A margin before all lines -/

theorem indentBreaks_of_not_mem {l : Text} (h : '\n' ∉ l) (margin t : Text) :
    indentBreaks margin (l ++ t) = l ++ indentBreaks margin t := by
  induction l with
  | nil => rfl
  | cons x l ih =>
    rw [List.mem_cons, not_or] at h
    have hstep : indentBreaks margin (x :: (l ++ t)) =
        (if x = '\n' then '\n' :: margin else [x]) ++ indentBreaks margin (l ++ t) := rfl
    rw [List.cons_append, hstep, if_neg (Ne.symm h.1), ih h.2]
    rfl

theorem append_indentBreaks_unlines {ls : List Text} (hne : ls ≠ []) (h : ∀ l ∈ ls, '\n' ∉ l)
    (margin : Text) :
    margin ++ indentBreaks margin (unlines ls) = unlines (ls.map (margin ++ ·)) := by
  induction ls with
  | nil => exact absurd rfl hne
  | cons l ls ih =>
    have hl := h l (by simp)
    cases ls with
    | nil =>
      have hone := indentBreaks_of_not_mem hl margin []
      rw [List.append_nil] at hone
      rw [List.map_singleton, unlines, unlines, List.intercalate_singleton,
        List.intercalate_singleton, hone]
      simp [indentBreaks, replaceChar]
    | cons k ls =>
      have hbreak : indentBreaks margin ('\n' :: unlines (k :: ls)) =
          '\n' :: (margin ++ indentBreaks margin (unlines (k :: ls))) := rfl
      rw [unlines_cons_cons, indentBreaks_of_not_mem hl, hbreak,
        ih (List.cons_ne_nil k ls) fun j hj => h j (List.mem_cons_of_mem l hj), List.map_cons,
        List.map_cons, List.map_cons, unlines_cons_cons, List.append_assoc]

/-- A text whose lines are all moved to the right. -/
theorem append_indentBreaks (margin t : Text) :
    margin ++ indentBreaks margin t = unlines (t.lines.map (margin ++ ·)) := by
  have h := append_indentBreaks_unlines (splitWhen_ne_nil _ t)
    (fun l hl => not_mem_of_mem_lines (t := t) hl) margin
  rwa [show unlines (splitWhen (· == '\n') t) = t from unlines_lines t] at h

end Haml.Text
