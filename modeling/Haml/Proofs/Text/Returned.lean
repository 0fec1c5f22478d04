import Haml.Proofs.Text.LineEnds
import Haml.Text.Margin

/-!
Texts that differ in carriage returns only, and texts that have one before some of their line
breaks. Main statement: the latter have corresponding lines with the same margin in common, so that
removing the margin leaves texts of the same kind.
-/
namespace Haml.Text

variable {b : Bool} {l l' t t' u u' : Text}

/-! ## Texts up to carriage returns -/

def SameText (t t' : Text) : Prop := dropReturns t' = dropReturns t

theorem SameText.refl (t : Text) : SameText t t := rfl

theorem dropReturns_append (t u : Text) : dropReturns (t ++ u) = dropReturns t ++ dropReturns u :=
  List.filter_append ..

theorem SameText.append (h : SameText t t') (h' : SameText u u') :
    SameText (t ++ u) (t' ++ u') := by
  rw [SameText, dropReturns_append, dropReturns_append, h, h']

theorem Returned.sameText (h : Returned b t t') : SameText t t' := by
  rw [SameText, h.dropReturns_eq, dropReturns_of_not_mem h.not_mem]

theorem dropReturns_cons {x : Char} (hx : x ≠ '\r') (t : Text) :
    dropReturns (x :: t) = x :: dropReturns t :=
  List.filter_cons_of_pos (by simpa using hx)

theorem dropReturns_reverse (t : Text) : dropReturns t.reverse = (dropReturns t).reverse :=
  List.filter_reverse ..

/-- Carriage returns are blanks, so trimming goes equally far without them. -/
theorem dropReturns_trimLeft (t : Text) : dropReturns (trimLeft t) = trimLeft (dropReturns t) := by
  induction t with
  | nil => rfl
  | cons x t ih =>
    by_cases hr : x = '\r'
    · subst hr
      exact ih
    · rw [dropReturns_cons hr]
      cases hx : isBlank x with
      | true =>
        rw [trimLeft, trimLeft, List.dropWhile_cons_of_pos hx, List.dropWhile_cons_of_pos hx]
        exact ih
      | false => rw [trimLeft_cons hx, trimLeft_cons hx, dropReturns_cons hr]

theorem dropReturns_trimRight (t : Text) :
    dropReturns (trimRight t) = trimRight (dropReturns t) := by
  have h := dropReturns_trimLeft t.reverse
  rw [dropReturns_reverse] at h
  show dropReturns (trimLeft t.reverse).reverse = (trimLeft (dropReturns t).reverse).reverse
  rw [dropReturns_reverse, h]

theorem SameText.trimLeft (h : SameText t t') : SameText (trimLeft t) (trimLeft t') := by
  rw [SameText, dropReturns_trimLeft, dropReturns_trimLeft, h]

theorem SameText.trimRight (h : SameText t t') : SameText (trimRight t) (trimRight t') := by
  rw [SameText, dropReturns_trimRight, dropReturns_trimRight, h]

/-- What is written for each character, if nothing is written for a carriage return but itself. -/
theorem dropReturns_flatMap {f : Char → Text} (hf : dropReturns (f '\r') = []) (t : Text) :
    dropReturns (t.flatMap f) = (dropReturns t).flatMap fun x => dropReturns (f x) := by
  induction t with
  | nil => rfl
  | cons x t ih =>
    rw [List.flatMap_cons, dropReturns_append, ih]
    by_cases hr : x = '\r'
    · subst hr
      rw [hf]
      rfl
    · rw [dropReturns_cons hr, List.flatMap_cons]

theorem SameText.flatMap {f : Char → Text} (hf : dropReturns (f '\r') = []) (h : SameText t t') :
    SameText (t.flatMap f) (t'.flatMap f) := by
  rw [SameText, dropReturns_flatMap hf, dropReturns_flatMap hf, h]

theorem SameText.indentBreaks (margin : Text) (h : SameText t t') :
    SameText (indentBreaks margin t) (indentBreaks margin t') :=
  h.flatMap rfl

/-! ## Lines and margins -/

theorem lines_dropReturns (t : Text) : (dropReturns t).lines = t.lines.map dropReturns := by
  induction t with
  | nil => rfl
  | cons x t ih =>
    obtain ⟨l, ls, h⟩ := List.exists_cons_of_ne_nil (splitWhen_ne_nil (· == '\n') t)
    have hlines : lines t = l :: ls := h
    rw [hlines] at ih
    by_cases hn : x = '\n'
    · subst hn
      rw [dropReturns_cons (by decide), lines_break, lines_break, ih, hlines]
      rfl
    · rw [Text.lines_cons hn hlines]
      by_cases hr : x = '\r'
      · subst hr
        exact ih
      · rw [dropReturns_cons hr, Text.lines_cons hn ih]
        simp only [List.map_cons, dropReturns_cons hr]

theorem dropReturns_unlines (ls : List Text) :
    dropReturns (unlines ls) = unlines (ls.map dropReturns) := by
  induction ls with
  | nil => rfl
  | cons l ls ih =>
    cases ls with
    | nil => simp [unlines]
    | cons k ls =>
      simp only [unlines, List.map_cons, List.intercalate_cons_cons, dropReturns_append] at ih ⊢
      rw [ih]
      rfl

theorem Returned.lines_cons (h : Returned b t t') :
    ∃ l l' ls ls', t.lines = l :: ls ∧ t'.lines = l' :: ls' ∧ ('\n' ∉ l ∧ '\r' ∉ l) ∧
      (l' = l ∨ (b || !l.all isBlank) = true ∧ l' = l ++ ['\r']) ∧
      List.Forall₂ RowReturned ls ls' := by
  induction h with
  | nil => exact ⟨[], [], [], [], rfl, rfl, by simp, .inl rfl, .nil⟩
  | last => exact ⟨[], ['\r'], [], [], rfl, rfl, by simp, .inr ⟨rfl, rfl⟩, .nil⟩
  | @char b x t t' hn hr h ih =>
    obtain ⟨l, l', ls, ls', hls, hls', hl, hends, hrest⟩ := ih
    refine ⟨x :: l, x :: l', ls, ls', Text.lines_cons hn hls, Text.lines_cons hn hls', ?_, ?_,
      hrest⟩
    · simp [Ne.symm hn, Ne.symm hr, hl]
    · rcases hends with rfl | ⟨hinside, rfl⟩
      · exact .inl rfl
      · refine .inr ⟨?_, rfl⟩
        rwa [List.all_cons, Bool.not_and, ← Bool.or_assoc]
  | bare h ih =>
    obtain ⟨l, l', ls, ls', hls, hls', hl, hends, hrest⟩ := ih
    refine ⟨[], [], l :: ls, l' :: ls', ?_, ?_, by simp, .inl rfl, .cons ⟨hl, ?_⟩ hrest⟩
    · rw [lines_break, hls]
    · rw [lines_break, hls']
    · simpa using hends
  | returned h ih =>
    obtain ⟨l, l', ls, ls', hls, hls', hl, hends, hrest⟩ := ih
    refine ⟨[], ['\r'], l :: ls, l' :: ls', ?_, ?_, by simp, .inr ⟨rfl, rfl⟩, .cons ⟨hl, ?_⟩ hrest⟩
    · rw [lines_break, hls]
    · rw [Text.lines_cons (by decide) (lines_break _), hls']
    · simpa using hends

/-- The lines correspond. -/
theorem Returned.lines (h : Returned false t t') : List.Forall₂ RowReturned t.lines t'.lines := by
  obtain ⟨l, l', ls, ls', hls, hls', hl, hends, hrest⟩ := h.lines_cons
  rw [hls, hls']
  exact .cons ⟨hl, by simpa using hends⟩ hrest

theorem mem_of_mem_commonStart {x : Char} {s t : Text} (h : x ∈ commonStart s t) : x ∈ s := by
  induction s generalizing t with
  | nil => simp [commonStart] at h
  | cons y s ih =>
    cases t with
    | nil => simp [commonStart] at h
    | cons z t =>
      rw [commonStart] at h
      split at h
      · rcases List.mem_cons.mp h with rfl | h
        · exact List.mem_cons_self ..
        · exact List.mem_cons_of_mem _ (ih h)
      · cases h

/-- A common margin is made of spaces and tabs. -/
theorem isIndent_commonMargin {ls : List Text} {x : Char} (h : x ∈ commonMargin ls) :
    isIndent x = true := by
  have hfold : ∀ (ms : List Text) (m : Text), x ∈ ms.foldl commonStart m → x ∈ m := by
    intro ms
    induction ms with
    | nil => exact fun _ => id
    | cons k ms ih => exact fun m hm => mem_of_mem_commonStart (ih _ hm)
  rw [commonMargin] at h
  split at h
  · cases h
  · next m ms hms =>
    obtain ⟨l, -, rfl⟩ := List.mem_map.mp (hms ▸ List.mem_cons_self .. : m ∈ _)
    exact List.all_eq_true.mp List.all_takeWhile x (hfold ms _ h)

theorem all_isIndent_of_returned (h : RowReturned l l') :
    l'.all isIndent = l.all isIndent ∧ (l.all isIndent = true → l' = l) := by
  rcases h.ends with rfl | ⟨hblank, rfl⟩
  · exact ⟨rfl, fun _ => rfl⟩
  · have hindent : l.all isIndent = false := by
      rw [← Bool.not_eq_true, List.all_eq_true] at hblank ⊢
      exact fun hall => hblank fun x hx => isBlank_of_isIndent (hall x hx)
    refine ⟨by simp [hindent], fun h => ?_⟩
    rw [hindent] at h
    cases h

theorem takeWhile_isIndent_of_returned (h : RowReturned l l') :
    l'.takeWhile isIndent = l.takeWhile isIndent := by
  rcases h.ends with rfl | ⟨-, rfl⟩
  · rfl
  · rw [List.takeWhile_append]
    split
    · next hlength =>
      have hall := (List.takeWhile_prefix isIndent).eq_of_length hlength
      rw [hall]
      exact List.append_nil l
    · rfl

/-- Lines that correspond have the same margin in common. -/
theorem commonMargin_returned {ls ls' : List Text} (h : List.Forall₂ RowReturned ls ls') :
    commonMargin ls' = commonMargin ls := by
  have hmargins : ((ls'.filter fun l => !l.all isIndent).map (·.takeWhile isIndent)) =
      (ls.filter fun l => !l.all isIndent).map (·.takeWhile isIndent) := by
    induction h with
    | nil => rfl
    | @cons l l' ls ls' hl _ ih =>
      rw [List.filter_cons, List.filter_cons, (all_isIndent_of_returned hl).1]
      split
      · rw [List.map_cons, List.map_cons, ih, takeWhile_isIndent_of_returned hl]
      · exact ih
  rw [commonMargin, commonMargin, hmargins]

theorem after?_return {margin : Text} (h : '\r' ∉ margin) (l : Text) :
    after? margin (l ++ ['\r']) = (after? margin l).map (· ++ ['\r']) := by
  induction margin generalizing l with
  | nil => rfl
  | cons x margin ih =>
    rw [List.mem_cons, not_or] at h
    cases l with
    | nil => simp [after?, Ne.symm h.1]
    | cons y l =>
      rw [List.cons_append, after?, after?]
      split
      · exact ih h.2 l
      · rfl

/-- A line without a margin. -/
theorem RowReturned.cut {margin : Text} (hmargin : ∀ x ∈ margin, isIndent x = true)
    (h : RowReturned l l') :
    RowReturned ((after? margin l).getD l) ((after? margin l').getD l') := by
  have hfree : '\r' ∉ margin := fun hmem => absurd (hmargin _ hmem) (by decide)
  have hline : '\n' ∉ (after? margin l).getD l ∧ '\r' ∉ (after? margin l).getD l := by
    cases hafter : after? margin l with
    | none => exact h.line
    | some r =>
      have hl := h.line
      rw [eq_append_of_after? hafter] at hl
      simp only [List.mem_append, not_or] at hl
      exact ⟨hl.1.2, hl.2.2⟩
  refine ⟨hline, ?_⟩
  rcases h.ends with rfl | ⟨hblank, rfl⟩
  · exact .inl rfl
  · right
    rw [after?_return hfree]
    cases hafter : after? margin l with
    | none => exact ⟨hblank, rfl⟩
    | some r =>
      refine ⟨?_, rfl⟩
      have hall : margin.all isBlank = true :=
        List.all_eq_true.mpr fun x hx => isBlank_of_isIndent (hmargin x hx)
      rwa [eq_append_of_after? hafter, List.all_append, hall, Bool.true_and] at hblank

/-- The margin of a text is removed alike. -/
theorem Returned.dedent (h : Returned false t t') : Returned false (dedent t) (dedent t') := by
  have hrows : List.Forall₂ RowReturned (t.lines.map fun l => if l.all isIndent then [] else l)
      (t'.lines.map fun l => if l.all isIndent then [] else l) := by
    rw [List.forall₂_map_left_iff, List.forall₂_map_right_iff]
    apply h.lines.imp
    intro l l' hl
    rw [(all_isIndent_of_returned hl).1]
    split
    · exact ⟨by simp, .inl rfl⟩
    · exact hl
  apply returned_unlines
  rw [commonMargin_returned hrows, List.forall₂_map_left_iff, List.forall₂_map_right_iff]
  exact hrows.imp fun l l' hl => hl.cut fun x hx => isIndent_commonMargin hx

/-! ## Line breaks at the ends -/

def dropLastBreaks (t : Text) : Text := (dropChar '\n' t.reverse).reverse

theorem dropLastBreaks_cons (x : Char) (t : Text) :
    dropLastBreaks (x :: t) =
      if (dropLastBreaks t).isEmpty then dropChar '\n' [x] else x :: dropLastBreaks t := by
  simp only [dropLastBreaks, dropChar, List.reverse_cons, List.dropWhile_append,
    List.isEmpty_reverse]
  split
  · by_cases hx : x = '\n' <;> simp [hx]
  · simp

theorem Returned.dropFirstBreaks (h : Returned false t t') :
    Returned false (dropChar '\n' t) (dropChar '\n' t') := by
  induction t generalizing t' with
  | nil =>
    cases h
    exact .nil
  | cons x t ih =>
    cases h with
    | char hn hr h =>
      rw [dropChar, dropChar, List.dropWhile_cons_of_neg (by simpa using hn),
        List.dropWhile_cons_of_neg (by simpa using hn)]
      exact .char hn hr h
    | bare h =>
      have hrest := ih h
      exact hrest

theorem Returned.dropLastBreaks (h : Returned b t t') :
    Returned b (dropLastBreaks t) (dropLastBreaks t') := by
  induction h with
  | nil => exact .nil
  | last => exact .last
  | @char b x t t' hn hr h ih =>
    have hkeep : ∀ u : Text, Text.dropLastBreaks (x :: u) = x :: Text.dropLastBreaks u := by
      intro u
      rw [dropLastBreaks_cons]
      split
      · next hempty => simp [List.isEmpty_iff.mp hempty, dropChar, hn]
      · rfl
    rw [hkeep, hkeep]
    exact .char hn hr ih
  | @bare b t t' h ih =>
    rw [dropLastBreaks_cons, dropLastBreaks_cons, ih.isEmpty_eq]
    split
    · exact .nil
    · exact .bare ih
  | @returned t t' h ih =>
    have hkeep : ∀ u : Text, Text.dropLastBreaks ('\r' :: u) = '\r' :: Text.dropLastBreaks u := by
      intro u
      rw [dropLastBreaks_cons]
      split
      · next hempty => simp [List.isEmpty_iff.mp hempty, dropChar]
      · rfl
    rw [hkeep, dropLastBreaks_cons, dropLastBreaks_cons, ih.isEmpty_eq]
    split
    · exact .last
    · exact .returned ih

end Haml.Text
