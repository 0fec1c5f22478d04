import Haml.Proofs.Reading.Motion

/-!
The lexical readers, each with what it leaves behind: the position it started from when it only
looks ahead, and otherwise how its value stands at the front of what there was to read.
-/
namespace Haml.Reader

variable {α : Type} {c c₁ : Cursor} {E : Failure → Prop}

theorem reject_alike (hE : ∀ e, e ≠ .stalled → E e) {Q : α → Cursor → Prop} (h₁ : c.Moves c₁)
    (fault : Fault) : Alike c E Q (reject fault c₁) (reject fault c₁) :=
  alike_error h₁ (hE _ (by simp))

theorem peek_alike (hE : ∀ e, e ≠ .stalled → E e) (h₁ : c.Moves c₁) :
    Alike c E (fun x c₂ => c₂ = c₁ ∧ ∃ t, c₁.rest = x :: t) (peek c₁) (peek c₁) := by
  obtain ⟨p, r, rfl⟩ := Cursor.exists_eq_of_within h₁.1
  cases r with
  | nil => exact alike_error h₁ (hE _ (by simp))
  | cons x t => exact alike_ok h₁ ⟨rfl, t, rfl⟩

theorem peek?_alike (h₁ : c.Moves c₁) :
    Alike c E (fun o c₂ => c₂ = c₁ ∧ o = c₁.rest.head?) (peek? c₁) (peek? c₁) := by
  obtain ⟨p, r, rfl⟩ := Cursor.exists_eq_of_within h₁.1
  cases r with
  | nil => exact alike_ok h₁ ⟨rfl, rfl⟩
  | cons x t => exact alike_ok h₁ ⟨rfl, rfl⟩

theorem atEnd_alike (h₁ : c.Moves c₁) :
    Alike c E (fun b c₂ => c₂ = c₁ ∧ (b = true ↔ c₁.rest = [])) (atEnd c₁) (atEnd c₁) := by
  refine alike_ok h₁ ⟨rfl, ?_⟩
  simp [Cursor.atEnd, h₁.1.2]

theorem get_alike (h₁ : c.Moves c₁) :
    Alike c E (fun s c₂ => c₂ = c₁ ∧ s = c₁)
      ((get : Reader Cursor) c₁) ((get : Reader Cursor) c₁) :=
  alike_ok h₁ ⟨rfl, rfl⟩

theorem allowance_alike (h₁ : c.Moves c₁) :
    Alike c E (fun t c₂ => c₂ = c₁ ∧ t = ' ' :: c₁.rest) (allowance c₁) (allowance c₁) := by
  refine alike_ok h₁ ⟨rfl, ?_⟩
  simp [Cursor.ahead, h₁.1.2]

theorem skip_alike {x : Char} {t : Text} (h₁ : c.Moves c₁) (hx : c₁.rest = x :: t) :
    Alike c E (fun _ c₂ => c₁.rest = x :: c₂.rest ∧ c₂.passed = x :: c₁.passed)
      (skip c₁) (skip c₁) := by
  obtain ⟨p, r, rfl⟩ := Cursor.exists_eq_of_within h₁.1
  obtain rfl : r = x :: t := hx
  exact alike_ok (h₁.trans (@Cursor.moves_append p [x] t)) ⟨rfl, rfl⟩

theorem takeWhile_alike (q : Char → Bool) (h₁ : c.Moves c₁) :
    Alike c E (fun t c₂ => t = c₁.rest.takeWhile q ∧ c₁.rest = t ++ c₂.rest)
      (takeWhile q c₁) (takeWhile q c₁) := by
  obtain ⟨p, r, rfl⟩ := Cursor.exists_eq_of_within h₁.1
  cases r with
  | nil => exact alike_ok h₁ ⟨rfl, rfl⟩
  | cons x t =>
    have hsplit := List.takeWhile_append_dropWhile (p := q) (l := x :: t)
    have hm : Cursor.Moves ⟨p, x :: t, 0, 0⟩
        ⟨((x :: t).takeWhile q).reverseAux p, (x :: t).dropWhile q, 0, 0⟩ := by
      refine ⟨⟨rfl, rfl⟩, (x :: t).takeWhile q, hsplit.symm, List.reverseAux_eq ..⟩
    exact alike_ok (h₁.trans hm) ⟨rfl, hsplit.symm⟩

theorem indentation_alike (h₁ : c.Moves c₁) :
    Alike c E (fun t c₂ => t = c₁.rest.takeWhile Text.isIndent ∧ c₁.rest = t ++ c₂.rest)
      (indentation c₁) (indentation c₁) :=
  takeWhile_alike _ h₁

theorem gap_alike (h₁ : c.Moves c₁) :
    Alike c E (fun t c₂ => t = c₁.rest.takeWhile Text.isGap ∧ c₁.rest = t ++ c₂.rest)
      (gap c₁) (gap c₁) :=
  takeWhile_alike _ h₁

theorem accept_alike (x : Char) (h₁ : c.Moves c₁) :
    Alike c E (fun b c₂ => (b = true ∧ c₁.rest = x :: c₂.rest) ∨
        (b = false ∧ c₂ = c₁ ∧ c₁.rest.head? ≠ some x))
      (accept x c₁) (accept x c₁) := by
  refine (peek?_alike h₁).bind fun o c₂ h₂ ho => ?_
  obtain ⟨rfl, rfl⟩ := ho
  refine .ite (fun hx => ?_) (fun hx => ?_)
  · obtain ⟨t, ht⟩ : ∃ t, c₂.rest = x :: t := by
      cases hr : c₂.rest with
      | nil => simp [hr] at hx
      | cons y t => exact ⟨t, by simpa [hr] using hx⟩
    refine (skip_alike h₂ ht).bind fun _ c₃ h₃ hr => ?_
    exact alike_pure h₃ (Or.inl ⟨rfl, hr.1⟩)
  · exact alike_pure h₂ (Or.inr ⟨rfl, rfl, hx⟩)

theorem expectInput_alike (hE : ∀ e, e ≠ .stalled → E e) (h₁ : c.Moves c₁) :
    Alike c E (fun _ c₂ => c₂ = c₁ ∧ c₁.rest ≠ []) (expectInput c₁) (expectInput c₁) := by
  refine (atEnd_alike h₁).bind fun b c₂ h₂ hb => ?_
  obtain ⟨rfl, hb⟩ := hb
  refine .ite (fun _ => reject_alike hE h₂ _) (fun hx => ?_)
  exact alike_pure h₂ ⟨rfl, fun he => hx (hb.mpr he)⟩

theorem unexpected_alike (hE : ∀ e, e ≠ .stalled → E e) {Q : α → Cursor → Prop} (h₁ : c.Moves c₁) :
    Alike c E Q (unexpected c₁) (unexpected c₁) := by
  refine (peek_alike hE h₁).bind fun x c₂ h₂ _ => ?_
  exact reject_alike hE h₂ _

theorem margin?_ne_stalled (t : Text) : margin? t ≠ .error .stalled := by
  induction t with
  | nil => nofun
  | cons x t ih =>
    simp only [margin?]
    split
    · nofun
    · split
      · cases hm : margin? t with
        | ok m => nofun
        | error e =>
          rw [hm] at ih
          intro he
          exact ih (congrArg Except.error (by simpa [Except.map] using he))
      · nofun

theorem peekMargin_alike (hE : ∀ e, e ≠ .stalled → E e) (h₁ : c.Moves c₁) :
    Alike c E (fun m c₂ => c₂ = c₁ ∧ margin? c₁.rest = .ok m) (peekMargin c₁) (peekMargin c₁) := by
  have hahead : c₁.ahead = c₁.rest := by simp [Cursor.ahead, h₁.1.2]
  have hne := margin?_ne_stalled c₁.rest
  unfold peekMargin
  rw [hahead]
  cases hm : margin? c₁.rest with
  | ok m => exact alike_ok h₁ ⟨rfl, rfl⟩
  | error e =>
    refine alike_error h₁ (hE e ?_)
    rintro rfl
    exact hne hm

/-- A line ends at a line break, which is passed over, or at the end of the text. -/
def LineRead (c₁ : Cursor) (l : Text) (c₂ : Cursor) : Prop :=
  '\n' ∉ l ∧ (c₁.rest = l ++ '\n' :: c₂.rest ∨ (c₁.rest = l ∧ c₂.rest = []))

theorem LineRead.length_lt {l : Text} {c₂ : Cursor} (h : LineRead c₁ l c₂) (hne : c₁.rest ≠ []) :
    c₂.rest.length < c₁.rest.length := by
  rcases h.2 with hr | ⟨_, hr⟩
  · simp only [hr, List.length_append, List.length_cons]
    omega
  · rw [hr]
    exact List.length_pos_iff.mpr hne

theorem LineRead.lineEnd {l : Text} {c₂ : Cursor} (h : LineRead c₁ l c₂) (h₁ : c.Moves c₁)
    (h₂ : c.Moves c₂) : c₂.LineEnd := by
  rcases h.2 with hr | ⟨_, hr⟩
  · have hp := h₁.passed_eq h₂ (w := l ++ ['\n']) (by simpa using hr)
    exact Or.inr (by simp [hp])
  · exact Or.inl hr

theorem line_alike (h₁ : c.Moves c₁) :
    Alike c E (LineRead c₁) (line c₁) (line c₁) := by
  refine (takeWhile_alike _ h₁).bind fun l c₂ h₂ hl => ?_
  obtain ⟨hl, hr⟩ := hl
  have hnl : '\n' ∉ l := by
    intro hm
    have hall := List.all_takeWhile (p := (· != '\n')) (l := c₁.rest)
    rw [← hl] at hall
    simpa using List.all_eq_true.mp hall '\n' hm
  refine (accept_alike '\n' h₂).bind fun b c₃ h₃ hb => ?_
  refine alike_pure h₃ ⟨hnl, ?_⟩
  rcases hb with ⟨_, hb⟩ | ⟨_, rfl, hhead⟩
  · exact Or.inl (by rw [hr, hb])
  · refine Or.inr ?_
    -- what follows the longest run without line breaks starts with one, if there is anything
    have hnil : c₃.rest = [] := by
      have hdrop : c₃.rest = c₁.rest.dropWhile (· != '\n') := by
        have hsplit := List.takeWhile_append_dropWhile (p := (· != '\n')) (l := c₁.rest)
        rw [← hl] at hsplit
        exact List.append_cancel_left (hr.symm.trans hsplit.symm)
      cases hc : c₃.rest with
      | nil => rfl
      | cons y t =>
        have hy := List.head_dropWhile_not (· != '\n') (l := c₁.rest) (by rw [← hdrop, hc]; simp)
        simp only [← hdrop, hc, List.head_cons, bne_eq_false_iff_eq] at hy
        rw [hc, hy] at hhead
        exact absurd rfl hhead
    exact ⟨by rw [hr, hnil, List.append_nil], hnil⟩

theorem line?_alike (h₁ : c.Moves c₁) :
    Alike c E (fun o c₂ => (o = none ∧ c₂ = c₁ ∧ c₁.rest = []) ∨
        ∃ l, o = some l ∧ c₁.rest ≠ [] ∧ LineRead c₁ l c₂)
      (line? c₁) (line? c₁) := by
  refine (atEnd_alike h₁).bind fun b c₂ h₂ hb => ?_
  obtain ⟨rfl, hb⟩ := hb
  refine .ite (fun hx => ?_) (fun hx => ?_)
  · exact alike_pure h₂ (Or.inl ⟨rfl, rfl, hb.mp hx⟩)
  · refine (line_alike h₂).bind fun l c₃ h₃ hl => ?_
    exact alike_pure h₃ (Or.inr ⟨l, rfl, fun he => hx (hb.mpr he), hl⟩)

/-- The closing quote is in the text: the body, the quote and the rest make it up. -/
theorem closingQuote_eq {q before : Char} {t body rest : Text}
    (h : closingQuote q before t = some (body, rest)) : t = body ++ q :: rest := by
  induction t generalizing before body with
  | nil => simp [closingQuote] at h
  | cons x t ih =>
    simp only [closingQuote] at h
    split at h
    · next hx =>
      obtain ⟨rfl, rfl⟩ : [] = body ∧ t = rest := by simpa using h
      rw [hx.1]
      rfl
    · obtain ⟨⟨b, r⟩, hb, heq⟩ := Option.map_eq_some_iff.mp h
      obtain ⟨rfl, rfl⟩ : x :: b = body ∧ r = rest := by simpa using heq
      rw [ih hb]
      rfl

theorem quotedString_alike (hE : ∀ e, e ≠ .stalled → E e) (h₁ : c.Moves c₁) :
    Alike c E (fun _ c₂ => c₂.rest.length < c₁.rest.length)
      (quotedString c₁) (quotedString c₁) := by
  obtain ⟨p, r, rfl⟩ := Cursor.exists_eq_of_within h₁.1
  unfold quotedString
  cases r with
  | nil => exact alike_error h₁ (hE _ (by simp))
  | cons q rest =>
    simp only [Cursor.ahead, if_true]
    split
    · cases hb : closingQuote q q rest with
      | none =>
        refine reject_alike hE (h₁.trans ?_) _
        exact ⟨⟨rfl, rfl⟩, q :: rest, by simp [Cursor.past], by simp [Cursor.past]⟩
      | some found =>
        obtain ⟨body, rest'⟩ := found
        have hr := closingQuote_eq hb
        have hm : Cursor.Moves ⟨p, q :: rest, 0, 0⟩
            (Cursor.past ⟨p, q :: rest, 0, 0⟩ (q :: body ++ [q]) rest') := by
          refine ⟨⟨rfl, rfl⟩, q :: body ++ [q], ?_, ?_⟩
          · simp [Cursor.past, hr]
          · simp [Cursor.past]
        have hspan : Cursor.span ⟨p, q :: rest, 0, 0⟩ (q :: body ++ [q]) = q :: (body ++ [q]) := by
          simp [Cursor.span]
        simp only [hspan]
        split
        · refine alike_ok (h₁.trans hm) ?_
          simp only [Cursor.past, if_true, hr, List.length_cons, List.length_append]
          omega
        · exact alike_error (h₁.trans hm) (hE _ (by simp))
    · exact alike_error h₁ (hE _ (by simp))

theorem number_alike (hE : ∀ e, e ≠ .stalled → E e) (h₁ : c.Moves c₁) :
    Alike c E (fun n c₂ => n = c₁.rest.takeWhile (fun c => Text.isDigit c || c == '.') ∧
        c₁.rest = n ++ c₂.rest)
      (number c₁) (number c₁) := by
  refine (takeWhile_alike _ h₁).bind fun n c₂ h₂ hn => ?_
  refine (peek_alike hE h₂).bind fun x c₃ h₃ hx => ?_
  obtain ⟨rfl, _⟩ := hx
  exact alike_pure h₃ hn

theorem forward_append (taken : Text) (p rest : Text) :
    Cursor.forward taken.length ⟨p, taken ++ rest, 0, 0⟩ = ⟨taken.reverse ++ p, rest, 0, 0⟩ := by
  induction taken generalizing p with
  | nil => rfl
  | cons x taken ih =>
    rw [List.length_cons, Cursor.forward, List.reverse_cons, List.append_assoc]
    exact ih (x :: p)

theorem symbol_alike (hE : ∀ e, e ≠ .stalled → E e) (symbols : List Text) (h₁ : c.Moves c₁) :
    Alike c E (fun s c₂ => s ∈ symbols ∧ c₁.rest = s ++ c₂.rest)
      (symbol symbols c₁) (symbol symbols c₁) := by
  obtain ⟨p, r, rfl⟩ := Cursor.exists_eq_of_within h₁.1
  unfold symbol
  cases hf : symbols.find? fun s => Cursor.piece ⟨p, r, 0, 0⟩ s.length == s with
  | none => exact reject_alike hE h₁ _
  | some s =>
    have hs : r.take s.length = s := by
      have := List.find?_some hf
      simpa [Cursor.piece] using this
    obtain ⟨rest, rfl⟩ : ∃ rest, r = s ++ rest := by
      have hsplit := List.take_append_drop s.length r
      rw [hs] at hsplit
      exact ⟨_, hsplit.symm⟩
    have hm : Cursor.Moves ⟨p, s ++ rest, 0, 0⟩ (Cursor.forward s.length ⟨p, s ++ rest, 0, 0⟩) := by
      rw [forward_append]
      exact Cursor.moves_append
    have hrest : (Cursor.forward s.length ⟨p, s ++ rest, 0, 0⟩).rest = rest := by
      rw [forward_append]
    exact alike_ok (h₁.trans hm) ⟨List.mem_of_find?_eq_some hf, by rw [hrest]⟩

/-- The word `w` was read between two positions. -/
structure WordRead (extra : Char → Bool) (c₁ : Cursor) (w : Text) (c₂ : Cursor) : Prop where
  ne_nil : w ≠ []
  rest_eq : c₁.rest = w ++ c₂.rest
  inWord : ∀ x ∈ w, (Text.isWord x || extra x) = true

theorem WordRead.length_lt {extra : Char → Bool} {w : Text} {c₂ : Cursor}
    (h : WordRead extra c₁ w c₂) : c₂.rest.length < c₁.rest.length := by
  have := List.length_pos_iff.mpr h.ne_nil
  rw [h.rest_eq, List.length_append]
  omega

theorem word_alike (hE : ∀ e, e ≠ .stalled → E e) (extra : Char → Bool) (h₁ : c.Moves c₁) :
    Alike c E (WordRead extra c₁) (word extra c₁) (word extra c₁) := by
  refine (expectInput_alike hE h₁).bind fun _ c₂ h₂ h => ?_
  obtain ⟨rfl, _⟩ := h
  refine (peek_alike hE h₂).bind fun x c₃ h₃ h => ?_
  obtain ⟨rfl, t, ht⟩ := h
  refine .ite (fun hx => ?_) (fun _ => reject_alike hE h₃ _)
  refine (takeWhile_alike _ h₃).mono fun w c₄ _ hw => ⟨?_, hw.2, fun y hy => ?_⟩
  · rw [hw.1, ht, List.takeWhile_cons, if_pos hx]
    simp
  · rw [hw.1] at hy
    exact List.all_eq_true.mp List.all_takeWhile y hy

end Haml.Reader
