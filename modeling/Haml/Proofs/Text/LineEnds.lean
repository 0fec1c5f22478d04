import Haml.Proofs.Text.Lines
import Haml.Proofs.Text.Trimming
import Haml.Reader
import Mathlib.Data.List.Forall2

/-!
Line ends with carriage returns. `withReturns t` has a carriage return before each line break of
`t`, and `dropReturns` takes carriage returns away again. Main statements: the lexical functions
that cut a text or read a quoted literal do the same with both line ends.
-/
namespace Haml.Text

def withReturns (t : Text) : Text := replaceChar '\n' ['\r', '\n'] t

def dropReturns (t : Text) : Text := t.filter (· != '\r')

/-- The first character that is written for `x`. -/
def lead (x : Char) : Char := if x = '\n' then '\r' else x

variable {x y : Char} {q : Char → Bool} {t u : Text}

@[simp] theorem withReturns_nil : withReturns [] = [] := rfl

@[simp] theorem withReturns_append (t u : Text) :
    withReturns (t ++ u) = withReturns t ++ withReturns u :=
  List.flatMap_append

@[simp] theorem withReturns_break (t : Text) :
    withReturns ('\n' :: t) = '\r' :: '\n' :: withReturns t := rfl

theorem withReturns_cons (hx : x ≠ '\n') (t : Text) :
    withReturns (x :: t) = x :: withReturns t := by
  simp [withReturns, replaceChar, hx]

theorem withReturns_of_not_mem (h : '\n' ∉ t) : withReturns t = t := by
  induction t with
  | nil => rfl
  | cons x t ih =>
    rw [List.mem_cons, not_or] at h
    rw [withReturns_cons (Ne.symm h.1), ih h.2]

@[simp] theorem withReturns_eq_nil : withReturns t = [] ↔ t = [] := by
  cases t with
  | nil => simp
  | cons x t =>
    by_cases hx : x = '\n'
    · simp [hx]
    · simp [withReturns_cons hx]

theorem head?_withReturns (t : Text) : (withReturns t).head? = t.head?.map lead := by
  cases t with
  | nil => rfl
  | cons x t =>
    by_cases hx : x = '\n'
    · subst hx
      rfl
    · simp [withReturns_cons hx, lead, hx]

theorem length_withReturns_lt (h : t ≠ []) :
    (withReturns u).length < (withReturns (t ++ u)).length := by
  have hpos : 0 < (withReturns t).length := List.length_pos_iff.mpr (by simpa using h)
  rw [withReturns_append, List.length_append]
  omega

/-- Tests for characters that end no line come out alike for what is written first. -/
theorem lead_eq_iff (hn : y ≠ '\n') (hr : y ≠ '\r') : lead x = y ↔ x = y := by
  by_cases hx : x = '\n'
  · simp [lead, hx, Ne.symm hn, Ne.symm hr]
  · simp [lead, hx]

theorem apply_lead (q : Char → Bool) (h : q '\r' = q '\n') (x : Char) : q (lead x) = q x := by
  by_cases hx : x = '\n'
  · simp [lead, hx, h]
  · simp [lead, hx]

/-- A run of characters goes equally far if it stops at both characters of a line end or at none. -/
theorem span_withReturns (h : q '\r' = q '\n') (t : Text) :
    (withReturns t).takeWhile q = withReturns (t.takeWhile q) ∧
      (withReturns t).dropWhile q = withReturns (t.dropWhile q) := by
  induction t with
  | nil => exact ⟨rfl, rfl⟩
  | cons x t ih =>
    by_cases hx : x = '\n'
    · subst hx
      cases hq : q '\n' <;> simp [h, hq, ih]
    · rw [withReturns_cons hx]
      cases hq : q x <;> simp [hq, withReturns_cons hx, ih]

theorem all_withReturns (h : q '\r' = q '\n') (t : Text) : (withReturns t).all q = t.all q := by
  induction t with
  | nil => rfl
  | cons x t ih =>
    by_cases hx : x = '\n'
    · subst hx
      simp [h, ih]
    · simp [withReturns_cons hx, ih]

/-- The first characters of a text, if there is no line break among them. -/
theorem take_withReturns {n : Nat} (h : '\n' ∉ t.take n) :
    (withReturns t).take n = t.take n ∧ (withReturns t).drop n = withReturns (t.drop n) := by
  have hsplit : withReturns t = t.take n ++ withReturns (t.drop n) := by
    conv_lhs => rw [← List.take_append_drop n t, withReturns_append, withReturns_of_not_mem h]
  rw [hsplit]
  by_cases hn : n ≤ t.length
  · have hlength : (t.take n).length = n := List.length_take_of_le hn
    exact ⟨List.take_left' hlength, List.drop_left' hlength⟩
  · have hdrop : t.drop n = [] := List.drop_eq_nil_of_le (by omega)
    have htake : t.take n = t := List.take_of_length_le (by omega)
    rw [hdrop, htake, withReturns_nil, List.append_nil, hdrop]
    exact ⟨htake, rfl⟩

/-- A text goes on with `w` for both line ends, if no line ends in `w`. -/
theorem take_withReturns_eq_iff {w : Text} (hn : '\n' ∉ w) (hr : '\r' ∉ w) :
    (withReturns t).take w.length = w ↔ t.take w.length = w := by
  induction w generalizing t with
  | nil => simp
  | cons y w ih =>
    rw [List.mem_cons, not_or] at hn hr
    cases t with
    | nil => simp
    | cons x t =>
      by_cases hx : x = '\n'
      · subst hx
        simp [hn.1, hr.1]
      · simp [withReturns_cons hx, ih hn.2 hr.2]

theorem margin?_withReturns (t : Text) : Reader.margin? (withReturns t) = Reader.margin? t := by
  induction t with
  | nil => rfl
  | cons x t ih =>
    by_cases hx : x = '\n'
    · subst hx
      rfl
    · rw [withReturns_cons hx, Reader.margin?, Reader.margin?, ih]

/-! ## Quoted literals -/

theorem closingQuote_withReturns {quote : Char} (hn : quote ≠ '\n') (hr : quote ≠ '\r')
    (before : Char) (t : Text) :
    Reader.closingQuote quote before (withReturns t) =
      (Reader.closingQuote quote before t).map fun r => (withReturns r.1, withReturns r.2) := by
  induction t generalizing before with
  | nil => rfl
  | cons x t ih =>
    by_cases hx : x = '\n'
    · subst hx
      simp [Reader.closingQuote, Ne.symm hn, Ne.symm hr, ih, Option.map_map, Function.comp_def]
    · rw [withReturns_cons hx, Reader.closingQuote, Reader.closingQuote]
      split
      · rfl
      · simp [ih, withReturns_cons hx, Option.map_map, Function.comp_def]

theorem foldlM_hexDigit?_eq_none (hx : hexDigit? x = none) (h : x ∈ t) (n : Nat) :
    t.foldlM (fun n c => (hexDigit? c).map (n * 16 + ·)) n = none := by
  induction t generalizing n with
  | nil => cases h
  | cons y t ih =>
    rw [List.foldlM_cons]
    rcases List.mem_cons.mp h with rfl | h
    · rw [hx]
      rfl
    · cases hexDigit? y with
      | none => rfl
      | some d => exact ih h _

theorem hexCode?_eq_none {n : Nat} (hx : hexDigit? x = none) (h : x ∈ t.take n) :
    hexCode? n t = none := by
  rw [hexCode?, hexValue?, foldlM_hexDigit?_eq_none hx h]
  simp

/-- Where a line ends within the first characters, the other line end does so too. -/
theorem mem_take_withReturns {n : Nat} (h : '\n' ∈ t.take n) : '\r' ∈ (withReturns t).take n := by
  induction t generalizing n with
  | nil => simp at h
  | cons x t ih =>
    cases n with
    | zero => simp at h
    | succ n =>
      by_cases hx : x = '\n'
      · simp [hx]
      · rw [withReturns_cons hx, List.take_succ_cons]
        rw [List.take_succ_cons, List.mem_cons] at h
        exact List.mem_cons_of_mem _ (ih (h.resolve_left (Ne.symm hx)))

theorem hexCode?_withReturns (n : Nat) (t : Text) :
    hexCode? n (withReturns t) = (hexCode? n t).map fun r => (r.1, withReturns r.2) := by
  by_cases h : '\n' ∈ t.take n
  · rw [hexCode?_eq_none (by decide) h, hexCode?_eq_none (by decide) (mem_take_withReturns h)]
    rfl
  · obtain ⟨htake, hdrop⟩ := take_withReturns h
    rw [hexCode?, hexCode?, htake, hdrop]
    split
    · cases hexValue? (t.take n) with
      | none => rfl
      | some code => cases hchar : charOfCode? code <;> simp [hchar]
    · rfl

theorem takeWhile_take_withReturns (n : Nat) (t : Text) :
    ((withReturns t).take n).takeWhile isOctal = (t.take n).takeWhile isOctal := by
  induction t generalizing n with
  | nil => rfl
  | cons x t ih =>
    cases n with
    | zero => rfl
    | succ n =>
      by_cases hx : x = '\n'
      · subst hx
        rfl
      · simp only [withReturns_cons hx, List.take_succ_cons, List.takeWhile_cons, ih]

theorem drop_octal_withReturns (n : Nat) (t : Text) :
    (withReturns t).drop ((t.take n).takeWhile isOctal).length =
      withReturns (t.drop ((t.take n).takeWhile isOctal).length) := by
  have hinitial : (t.take n).takeWhile isOctal <+: t :=
    (List.takeWhile_prefix _).trans (List.take_prefix n t)
  refine (take_withReturns ?_).2
  rw [← List.prefix_iff_eq_take.mp hinitial]
  intro h
  exact absurd (List.all_eq_true.mp List.all_takeWhile _ h) (by decide)

theorem escape?_withReturns (hcr : '\r' ∉ t) :
    escape? (withReturns t) = (escape? t).map fun r => (r.1, withReturns r.2) := by
  cases t with
  | nil => rfl
  | cons x t =>
    by_cases hx : x = '\n'
    · subst hx
      rfl
    · have hr : x ≠ '\r' := fun h => hcr (by simp [h])
      rw [withReturns_cons hx, escape?, escape?]
      cases hnamed : namedEscape? x with
      | some d => rfl
      | none =>
        simp only [hx, hr, if_false, takeWhile_take_withReturns, hexCode?_withReturns,
          List.length_cons, List.drop_succ_cons, drop_octal_withReturns]
        split
        · rfl
        · repeat' split
          all_goals rfl

theorem mem_of_mem_hexCode? {n : Nat} {v rest : Text} (h : hexCode? n t = some (v, rest))
    (hx : x ∈ rest) : x ∈ t := by
  unfold hexCode? at h
  split at h
  · simp only [Option.bind_eq_bind, Option.bind_eq_some_iff] at h
    obtain ⟨code, _, c, _, h⟩ := h
    obtain ⟨-, rfl⟩ : [c] = v ∧ t.drop n = rest := by simpa using h
    exact List.mem_of_mem_drop hx
  · cases h

/-- An escape is cut off the start of a text. -/
theorem mem_of_mem_escape? {v rest : Text} (h : escape? t = some (v, rest)) (hx : x ∈ rest) :
    x ∈ t := by
  cases t with
  | nil => cases h
  | cons y t =>
    simp only [escape?] at h
    split at h
    · cases h
      exact List.mem_cons_of_mem _ hx
    · split at h
      · cases h
        exact List.mem_cons_of_mem _ hx
      · split at h
        · cases h
          cases hafter : after? ['\n'] t with
          | none =>
            rw [hafter] at hx
            exact List.mem_cons_of_mem _ hx
          | some r =>
            rw [hafter] at hx
            rw [eq_append_of_after? hafter]
            exact List.mem_cons_of_mem _ (List.mem_append_right _ hx)
        · split at h
          · cases h
            exact List.mem_of_mem_drop hx
          · repeat' split at h
            all_goals first
              | exact List.mem_cons_of_mem _ (mem_of_mem_hexCode? h hx)
              | cases h
            exact List.mem_cons_of_mem _ hx

/-- A literal has the same value with both line ends. -/
theorem unquote_withReturns {quote : Char} (hn : quote ≠ '\n') (hr : quote ≠ '\r')
    (hcr : '\r' ∉ t) :
    unquote quote (withReturns t) = (unquote quote t).map fun r => (r.1, withReturns r.2) := by
  induction h : t.length using Nat.strong_induction_on generalizing t with
  | _ n ih =>
    subst h
    cases t with
    | nil => simp [unquote]
    | cons x t =>
      rw [List.mem_cons, not_or] at hcr
      by_cases hx : x = '\n'
      · subst hx
        simp [unquote, Ne.symm hn, Ne.symm hr]
      · have hrest : ∀ u : Text, (∀ z ∈ u, z ∈ t) → u.length ≤ t.length →
            unquote quote (withReturns u) =
              (unquote quote u).map fun r => (r.1, withReturns r.2) := by
          intro u hu hle
          exact ih _ (Nat.lt_succ_of_le hle) (fun hmem => hcr.2 (hu _ hmem)) rfl
        rw [withReturns_cons hx, unquote, unquote, hrest t (fun _ => id) (Nat.le_refl _),
          escape?_withReturns hcr.2]
        split
        · rfl
        · split
          · rfl
          · split
            · cases hesc : escape? t with
              | none => simp
              | some found =>
                obtain ⟨v, rest⟩ := found
                have hlt := length_escape?_lt hesc
                have hsame := hrest rest (fun z hz => mem_of_mem_escape? hesc hz) (Nat.le_of_lt hlt)
                simp [hsame, Option.map_map, Function.comp_def]
            · simp [Option.map_map, Function.comp_def]

/-- The pieces of a text between its line ends are the same with both of these, apart from empty
ones. -/
theorem splitWhen_withReturns (cut : Char → Bool) (hn : cut '\n' = true) (hr : cut '\r' = true)
    (ok : Text → Bool) (hok : ok [] = true) (t : Text) :
    ∃ w ws ws', splitWhen cut t = w :: ws ∧ splitWhen cut (withReturns t) = w :: ws' ∧
      ws'.all ok = ws.all ok := by
  induction t with
  | nil => exact ⟨[], [], [], rfl, rfl, rfl⟩
  | cons x t ih =>
    obtain ⟨w, ws, ws', hws, hws', hall⟩ := ih
    by_cases hx : x = '\n'
    · subst hx
      refine ⟨[], w :: ws, [] :: w :: ws', ?_, ?_, ?_⟩
      · rw [splitWhen, if_pos hn, hws]
      · rw [withReturns_break, splitWhen, if_pos hr, splitWhen, if_pos hn, hws']
      · simp [hok, hall]
    · rw [withReturns_cons hx, splitWhen, splitWhen, hws, hws']
      by_cases hc : cut x = true
      · rw [if_pos hc, if_pos hc]
        exact ⟨[], w :: ws, w :: ws', rfl, rfl, by simp [hall]⟩
      · rw [if_neg hc, if_neg hc]
        exact ⟨x :: w, ws, ws', rfl, rfl, hall⟩

theorem literal?_withReturns {quote : Char} (hn : quote ≠ '\n') (hr : quote ≠ '\r')
    (hcr : '\r' ∉ t) : literal? quote (withReturns t) = literal? quote t := by
  have hnul : (withReturns t).any (·.toNat == 0) = t.any (·.toNat == 0) := by
    rw [← Bool.not_inj_iff, List.not_any_eq_all_not, List.not_any_eq_all_not]
    exact all_withReturns rfl t
  rw [literal?, literal?, unquote_withReturns hn hr hcr, hnul]
  cases unquote quote t with
  | none => rfl
  | some found =>
    obtain ⟨value, rest⟩ := found
    obtain ⟨w, ws, ws', hws, hws', hall⟩ :=
      splitWhen_withReturns (fun c => c == '\n' || c == '\r') rfl rfl isRemark rfl rest
    simp only [Option.map_some, hws, hws', List.all_cons, hall]

/-! ## Texts with some carriage returns -/

/-- A line, and the line with a carriage return at its end unless it is blank. -/
structure RowReturned (l l' : Text) : Prop where
  line : '\n' ∉ l ∧ '\r' ∉ l
  ends : l' = l ∨ l.all isBlank = false ∧ l' = l ++ ['\r']

/-- A text without carriage returns, and one that has some at the ends of lines which are not blank;
`inLine` says whether something stands already before the text on its first line. -/
inductive Returned : (inLine : Bool) → Text → Text → Prop
  | nil {b : Bool} : Returned b [] []
  | last : Returned true [] ['\r']
  | char {b : Bool} {x : Char} {t t' : Text} (hn : x ≠ '\n') (hr : x ≠ '\r')
      (h : Returned (b || !isBlank x) t t') : Returned b (x :: t) (x :: t')
  | bare {b : Bool} {t t' : Text} (h : Returned false t t') : Returned b ('\n' :: t) ('\n' :: t')
  | returned {t t' : Text} (h : Returned false t t') :
      Returned true ('\n' :: t) ('\r' :: '\n' :: t')

variable {b : Bool} {l l' t' : Text}

theorem Returned.not_mem (h : Returned b t t') : '\r' ∉ t := by
  induction h with
  | nil => simp
  | last => simp
  | char hn hr _ ih => simp [Ne.symm hr, ih]
  | bare _ ih => simp [ih]
  | returned _ ih => simp [ih]

theorem dropReturns_of_not_mem (h : '\r' ∉ t) : dropReturns t = t := by
  rw [dropReturns, List.filter_eq_self]
  intro x hx
  simp only [bne_iff_ne, ne_eq]
  rintro rfl
  exact h hx

/-- Without its carriage returns the one is the other. -/
theorem Returned.dropReturns_eq (h : Returned b t t') : dropReturns t' = t := by
  induction h with
  | nil => rfl
  | last => rfl
  | char hn hr _ ih =>
    rw [dropReturns, List.filter_cons_of_pos (by simpa using hr)]
    exact congrArg _ ih
  | bare _ ih => exact congrArg ('\n' :: ·) ih
  | returned _ ih => exact congrArg ('\n' :: ·) ih

theorem Returned.isEmpty_eq (h : Returned false t t') : t'.isEmpty = t.isEmpty := by
  cases h <;> rfl

/-- A line in front of a text. -/
theorem Returned.line_append (hl : '\n' ∉ l ∧ '\r' ∉ l) (h : Returned (b || !l.all isBlank) t t') :
    Returned b (l ++ t) (l ++ t') := by
  induction l generalizing b with
  | nil => simpa using h
  | cons x l ih =>
    simp only [List.mem_cons, not_or] at hl
    refine .char (Ne.symm hl.1.1) (Ne.symm hl.2.1) (ih ⟨hl.1.2, hl.2.2⟩ ?_)
    rwa [List.all_cons, Bool.not_and, ← Bool.or_assoc] at h

theorem RowReturned.returned (h : RowReturned l l') : Returned b l l' := by
  rcases h.ends with rfl | ⟨hblank, rfl⟩
  · have hline : Returned b (l' ++ []) (l' ++ []) := .line_append h.line .nil
    simpa using hline
  · have hline : Returned b (l ++ []) (l ++ ['\r']) :=
      .line_append h.line (by simpa [hblank] using Returned.last)
    simpa using hline

/-- Lines with carriage returns at some of their ends. -/
theorem returned_unlines {ls ls' : List Text} (h : List.Forall₂ RowReturned ls ls') :
    Returned false (unlines ls) (unlines ls') := by
  induction h with
  | nil => exact .nil
  | @cons l l' ls ls' hl hrest ih =>
    cases hrest with
    | nil => simpa [unlines] using hl.returned
    | cons hk hrest =>
      simp only [unlines, List.intercalate_cons_cons, List.append_assoc,
        List.singleton_append] at ih ⊢
      rcases hl.ends with rfl | ⟨hblank, rfl⟩
      · exact Returned.line_append hl.line (.bare ih)
      · rw [List.append_assoc]
        exact Returned.line_append hl.line (by simpa [hblank] using Returned.returned ih)

end Haml.Text
