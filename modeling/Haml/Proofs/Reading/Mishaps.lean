import Haml.Proofs.Compile.Termination
import Haml.Proofs.Text.Lines

/-!
How attribute dictionaries fail. A reader in a dictionary ends without a value when it explains a
fault, when only blanks are left where more is needed, when a quoted literal cannot be evaluated,
when a block value has a blank first line, or when a block value fails; `Mishap` says so with what
is seen of it in the text. No reader is started at a character that it does not expect.
-/
namespace Haml

open Attribute (blankToEmpty weight weight_append length_unlines)

theorem Attribute.blankToEmpty_eq_or (l : Text) : blankToEmpty l = [] ∨ blankToEmpty l = l := by
  unfold blankToEmpty
  split
  · exact .inl rfl
  · exact .inr rfl

theorem Attribute.blankToEmpty_idem (l : Text) :
    blankToEmpty (blankToEmpty l) = blankToEmpty l := by
  rcases blankToEmpty_eq_or l with h | h
  · rw [h]
    rfl
  · rw [h, h]

/-- The text `u` is a block of lines of `t` below the first one; its blank lines are empty. -/
def Inside (u t : Text) : Prop :=
  ∃ before rows after, before ≠ [] ∧ rows ≠ [] ∧ t.lines = before ++ (rows ++ after) ∧
    u = Text.unlines (rows.map blankToEmpty)

theorem weight_lines (t : Text) : weight t.lines = t.length + 1 := by
  induction t with
  | nil => rfl
  | cons x t ih =>
    by_cases hx : x = '\n'
    · subst hx
      rw [Text.lines_break, weight, ih]
      simp [Nat.add_comm]
    · obtain ⟨l, ls, h⟩ := List.exists_cons_of_ne_nil (Text.splitWhen_ne_nil (· == '\n') t)
      rw [Text.lines, h] at ih
      rw [Text.lines_cons hx h]
      simp only [weight, List.length_cons] at ih ⊢
      omega

theorem weight_map_blankToEmpty_le (ls : List Text) : weight (ls.map blankToEmpty) ≤ weight ls := by
  induction ls with
  | nil => exact Nat.le_refl _
  | cons l ls ih =>
    have hle := Attribute.length_blankToEmpty_le l
    simp only [List.map_cons, weight]
    omega

theorem Inside.length_lt {t u : Text} (h : Inside u t) : u.length < t.length := by
  obtain ⟨before, rows, after, hbefore, hrows, hlines, rfl⟩ := h
  obtain ⟨first, others, rfl⟩ := List.exists_cons_of_ne_nil hbefore
  have hwhole := weight_lines t
  have hblock : (Text.unlines (rows.map blankToEmpty)).length + 1 =
      weight (rows.map blankToEmpty) := length_unlines (by simpa using hrows)
  have hle := weight_map_blankToEmpty_le rows
  rw [hlines] at hwhole
  simp only [List.cons_append, weight, weight_append] at hwhole
  omega

theorem Inside.lines_eq {t u : Text} (h : Inside u t) :
    ∃ before rows after, before ≠ [] ∧ t.lines = before ++ (rows ++ after) ∧
      u.lines = rows.map blankToEmpty := by
  obtain ⟨before, rows, after, hbefore, hrows, hlines, rfl⟩ := h
  refine ⟨before, rows, after, hbefore, hlines, Text.lines_unlines (by simpa using hrows) ?_⟩
  intro l hl
  obtain ⟨k, hk, rfl⟩ := List.mem_map.mp hl
  rcases Attribute.blankToEmpty_eq_or k with he | he
  · rw [he]
    nofun
  · rw [he]
    exact Text.not_mem_of_mem_lines (t := t) (by rw [hlines]; simp [hk])

theorem Inside.trans {t u v : Text} (h : Inside v u) (h' : Inside u t) : Inside v t := by
  obtain ⟨before', rows', after', hbefore', hlines', hu⟩ := h'.lines_eq
  obtain ⟨before, rows, after, hbefore, hrows, hlines, rfl⟩ := h
  rw [hu] at hlines
  obtain ⟨front, others, rfl, rfl, hothers⟩ := List.map_eq_append_iff.mp hlines
  obtain ⟨middle, back, rfl, rfl, rfl⟩ := List.map_eq_append_iff.mp hothers
  refine ⟨before' ++ front, middle, back ++ after', by simp [hbefore'], by simpa using hrows,
    ?_, ?_⟩
  · rw [hlines']
    simp only [List.append_assoc]
  · rw [List.map_map]
    congr 1
    exact List.map_congr_left fun l _ => Attribute.blankToEmpty_idem l

/-- There is a blank line below the first line, and a line further below that is not blank. -/
def Gapped (t : Text) : Prop :=
  ∃ before l after, before ≠ [] ∧ t.lines = before ++ l :: after ∧
    (∀ x ∈ l, Text.isBlank x = true) ∧ ∃ k ∈ after, ∃ x ∈ k, Text.isBlank x = false

/-- How the readers in a dictionary of the text `t` fail; `block` compiles block values. -/
inductive Mishap (block : Text → Except Failure Text) (t : Text) : Failure → Cursor → Prop
  | rejected {fault : Fault} {near : Option Text} {c : Cursor} :
      Mishap block t (.rejected fault near) c
  /-- More is needed where there are only blanks. -/
  | ended {c : Cursor} (hline : '\n' ∉ c.rest) (hblank : ∀ x ∈ c.rest, Text.isBlank x = true) :
      Mishap block t .pastEnd c
  /-- A quoted literal that stands in the text cannot be evaluated. -/
  | literal {q : Char} {body : Text} {c : Cursor} (hq : Reader.isQuote q = true)
      (hin : (q :: body ++ [q]) <:+: t) (hbad : Text.literal? q (body ++ [q]) = none) :
      Mishap block t .badLiteral c
  /-- A block value starts with a blank line and goes on with one that is not blank. -/
  | margin {c : Cursor} (h : Gapped t) : Mishap block t .noMargin c
  /-- A block value that is made of lines of the text fails. -/
  | block {u : Text} {e : Failure} {c : Cursor} (hu : Inside u t) (he : block u = .error e) :
      Mishap block t e c
  | stalled {c : Cursor} : Mishap block t .stalled c

namespace Reader

variable {α β σ : Type} {F : Failure → Cursor → Prop} {c c₁ : Cursor} {Q : α → Cursor → Prop}

/-- If the reader fails at `c`, then with a failure and at a position that satisfy `F`. -/
def FailsAt (F : Failure → Cursor → Prop) (r : Reader α) (c : Cursor) : Prop :=
  ∀ e c', r c = .error e c' → F e c'

theorem failsAt_pure (a : α) : FailsAt F (pure a) c := by
  intro e c' h
  cases h

theorem failsAt_throw {e : Failure} (h : F e c) : FailsAt F (throw e : Reader α) c := by
  intro e' c' h'
  cases h'
  exact h

theorem failsAt_of_alike {r : Reader α} (h : Alike c (fun _ => False) Q (r c₁) (r c₁)) :
    FailsAt F r c₁ := by
  obtain ⟨_, hout⟩ := h
  intro e c' hr
  rw [hr] at hout
  exact hout.2.elim

/-- One action after another. -/
theorem FailsAt.bind {x : Reader α} {f : α → Reader β} (hx : FailsAt F x c₁)
    (hok : Alike c (fun _ => True) Q (x c₁) (x c₁))
    (hf : ∀ a c₂, c.Moves c₂ → Q a c₂ → FailsAt F (f a) c₂) : FailsAt F (x >>= f) c₁ := by
  intro e c' h
  cases hr : x c₁ with
  | ok a c₂ =>
    rw [bind_of_ok hr] at h
    obtain ⟨h₂, hq⟩ := hok.ok hr
    exact hf a c₂ h₂ hq e c' h
  | error e' c₂ =>
    simp only [Bind.bind, EStateM.bind, hr] at h
    cases h
    exact hx e c' hr

/-- An action that does not fail, and another one after it. -/
theorem FailsAt.after {x : Reader α} {f : α → Reader β}
    (hok : Alike c (fun _ => False) Q (x c₁) (x c₁))
    (hf : ∀ a c₂, c.Moves c₂ → Q a c₂ → FailsAt F (f a) c₂) : FailsAt F (x >>= f) c₁ := by
  intro e c' h
  cases hr : x c₁ with
  | ok a c₂ =>
    rw [bind_of_ok hr] at h
    obtain ⟨h₂, hq⟩ := hok.ok hr
    exact hf a c₂ h₂ hq e c' h
  | error e' c₂ =>
    have hnot : FailsAt (fun _ _ => False) x c₁ := failsAt_of_alike hok
    exact (hnot e' c₂ hr).elim

theorem FailsAt.ite {q : Prop} [Decidable q] {x y : Reader α} (hx : q → FailsAt F x c)
    (hy : ¬ q → FailsAt F y c) : FailsAt F (if q then x else y) c := by
  by_cases h : q
  · rw [if_pos h]
    exact hx h
  · rw [if_neg h]
    exact hy h

/-- A loop fails as one of its turns does, or because its allowance is used up. -/
theorem failsAt_iterate {turn : σ → Reader (σ ⊕ α)} {I : σ → Cursor → Prop}
    (hstalled : ∀ c', F .stalled c')
    (hfails : ∀ s c₁, c.Moves c₁ → I s c₁ → FailsAt F (turn s) c₁)
    (hturn : ∀ s c₁, c.Moves c₁ → I s c₁ →
      Alike c (fun _ => True) (Turned I Q c₁) (turn s c₁) (turn s c₁))
    (steps : Text) (s : σ) (h₁ : c.Moves c₁) (hI : I s c₁) :
    FailsAt F (iterate turn steps s) c₁ := by
  induction steps generalizing s c₁ with
  | nil => exact failsAt_throw (hstalled _)
  | cons x steps ih =>
    refine (hfails s c₁ h₁ hI).bind (hturn s c₁ h₁ hI) fun r c₂ h₂ hr => ?_
    cases r with
    | inl s' => exact ih s' h₂ hr.2
    | inr a => exact failsAt_pure a

theorem failsAt_gather {turn : Reader (Option α)} {acc : List α} (h : FailsAt F turn c) :
    FailsAt F (gather turn acc) c := by
  intro e c' hr
  cases ht : turn c with
  | ok o c₁ =>
    rw [gather, bind_of_ok ht] at hr
    cases o <;> cases hr
  | error e' c₁ =>
    simp only [gather, Bind.bind, EStateM.bind, ht] at hr
    cases hr
    exact h e c' ht

/-! ## The lexical readers -/

section Lexical

variable {block : Text → Except Failure Text} {t : Text}

/-- Where only the failures of loops are kept apart, nothing is asked of the others. -/
theorem anything : ∀ e : Failure, e ≠ .stalled → True := fun _ _ => trivial

theorem peek_alike_of_ne_nil {E : Failure → Prop} (h₁ : c.Moves c₁) (hne : c₁.rest ≠ []) :
    Alike c E (fun x c₂ => c₂ = c₁ ∧ ∃ t, c₁.rest = x :: t) (peek c₁) (peek c₁) := by
  obtain ⟨p, r, rfl⟩ := Cursor.exists_eq_of_within h₁.1
  cases r with
  | nil => exact absurd rfl hne
  | cons x t => exact alike_ok h₁ ⟨rfl, t, rfl⟩

/-- Every fault that a reader explains is among the failures. -/
def Rejects (F : Failure → Cursor → Prop) : Prop := ∀ fault near c, F (.rejected fault near) c

theorem rejects_mishap : Rejects (Mishap block t) := fun _ _ _ => .rejected

theorem fails_reject (hF : Rejects F) (fault : Fault) :
    FailsAt F (reject fault : Reader α) c := by
  intro e c' h
  cases h
  exact hF ..

theorem fails_expectInput (hF : Rejects F) (hc : c.Within) : FailsAt F expectInput c := by
  refine FailsAt.after (atEnd_alike (.refl hc)) fun b c₁ _ _ => ?_
  exact .ite (fun _ => fails_reject hF _) fun _ => failsAt_pure _

theorem fails_word (hF : Rejects F) (extra : Char → Bool) (h₁ : c.Moves c₁) :
    FailsAt F (word extra) c₁ := by
  refine (fails_expectInput hF h₁.1).bind (expectInput_alike anything h₁) fun _ c₂ h₂ h => ?_
  obtain ⟨rfl, hne⟩ := h
  refine FailsAt.after (peek_alike_of_ne_nil h₂ hne) fun x c₃ h₃ _ => ?_
  exact .ite (fun _ => failsAt_of_alike (takeWhile_alike _ h₃)) fun _ => fails_reject hF _

theorem fails_symbol (hF : Rejects F) (symbols : List Text) : FailsAt F (symbol symbols) c := by
  intro e c' h
  unfold symbol at h
  split at h
  · cases h
  · exact fails_reject hF _ e c' h

theorem fails_peek (hc : c.Within) : FailsAt (Mishap block t) peek c := by
  obtain ⟨p, r, rfl⟩ := Cursor.exists_eq_of_within hc
  intro e c' h
  cases r with
  | nil =>
    cases h
    exact .ended nofun nofun
  | cons x r => cases h

theorem fails_unexpected (h₁ : c.Moves c₁) :
    FailsAt (Mishap block t) (unexpected : Reader α) c₁ :=
  (fails_peek h₁.1).bind (peek_alike anything h₁) fun _ _ _ _ => fails_reject rejects_mishap _

theorem fails_number (h₁ : c.Moves c₁) : FailsAt (Mishap block t) number c₁ := by
  refine FailsAt.after (takeWhile_alike _ h₁) fun n c₂ h₂ _ => ?_
  exact (fails_peek h₂.1).bind (peek_alike anything h₂) fun _ _ _ _ => failsAt_pure _

theorem margin?_error {t : Text} {e : Failure} (h : margin? t = .error e) :
    e = .pastEnd ∧ '\n' ∉ t ∧ ∀ x ∈ t, Text.isBlank x = true := by
  induction t with
  | nil =>
    cases h
    exact ⟨rfl, nofun, nofun⟩
  | cons x t ih =>
    rw [margin?] at h
    split at h
    · cases h
    · next hbreak =>
      split at h
      · next hx =>
        cases hm : margin? t with
        | ok m =>
          rw [hm] at h
          cases h
        | error e' =>
          rw [hm] at h
          cases h
          obtain ⟨he, hline, ht⟩ := ih hm
          refine ⟨he, ?_, fun y hy => ?_⟩
          · rw [List.mem_cons, not_or]
            exact ⟨Ne.symm hbreak, hline⟩
          · rcases List.mem_cons.mp hy with rfl | hy
            · exact hx
            · exact ht y hy
      · cases h

/-- The line is blank and has no margin, or it is not blank and its margin is `k`. -/
def HasMargin (l : Text) : Option Nat → Prop
  | none => ∀ x ∈ l, Text.isBlank x = true
  | some k => (l.takeWhile Text.isBlank).length = k ∧ ∃ x ∈ l, Text.isBlank x = false

/-- The margin is that of the first line. -/
theorem margin?_line {t : Text} {m : Option Nat} (h : margin? t = .ok m) :
    ∃ l ls, t.lines = l :: ls ∧ HasMargin l m := by
  induction t generalizing m with
  | nil => cases h
  | cons x t ih =>
    rw [margin?] at h
    split at h
    · next hx =>
      subst hx
      cases h
      exact ⟨[], Text.lines t, rfl, by simp [HasMargin]⟩
    · next hbreak =>
      split at h
      · next hx =>
        cases hm : margin? t with
        | error e =>
          rw [hm] at h
          cases h
        | ok m' =>
          obtain ⟨l, ls, hls, hl⟩ := ih hm
          rw [hm] at h
          cases h
          refine ⟨x :: l, ls, Text.lines_cons hbreak hls, ?_⟩
          cases m' with
          | none =>
            intro y hy
            rcases List.mem_cons.mp hy with rfl | hy
            · exact hx
            · exact hl y hy
          | some k =>
            obtain ⟨hk, y, hy, hnot⟩ := hl
            refine ⟨?_, y, List.mem_cons_of_mem x hy, hnot⟩
            rw [List.takeWhile_cons, if_pos hx, List.length_cons, hk]
      · next hx =>
        cases h
        obtain ⟨l, ls, hls⟩ := List.exists_cons_of_ne_nil (Text.splitWhen_ne_nil (· == '\n') t)
        refine ⟨x :: l, ls, Text.lines_cons hbreak hls, ?_, x, List.mem_cons_self .., ?_⟩
        · rw [List.takeWhile_cons, if_neg hx, List.length_nil]
        · simpa using hx

theorem fails_peekMargin (hc : c.Within) : FailsAt (Mishap block t) peekMargin c := by
  have hahead : c.ahead = c.rest := by simp [Cursor.ahead, hc.2]
  intro e c' h
  unfold peekMargin at h
  rw [hahead] at h
  cases hm : margin? c.rest with
  | ok m =>
    rw [hm] at h
    cases h
  | error e' =>
    rw [hm] at h
    cases h
    obtain ⟨rfl, hline, hblank⟩ := margin?_error hm
    exact .ended hline hblank

/-- A quoted string is started at a quote, and there is a literal to evaluate. -/
theorem fails_quotedString {q : Char} {r : Text} (h₁ : c.Moves c₁) (hr : c₁.rest = q :: r)
    (hq : isQuote q = true) : FailsAt (Mishap block c.text) quotedString c₁ := by
  rw [← h₁.text_eq]
  obtain ⟨p, r', rfl⟩ := Cursor.exists_eq_of_within h₁.1
  obtain rfl : r' = q :: r := hr
  intro e c' h
  unfold quotedString at h
  simp only [Cursor.ahead, if_true, if_pos hq] at h
  cases hb : closingQuote q q r with
  | none =>
    rw [hb] at h
    cases h
    exact .rejected
  | some found =>
    obtain ⟨body, rest⟩ := found
    have hspan : Cursor.span ⟨p, q :: r, 0, 0⟩ (q :: body ++ [q]) = q :: (body ++ [q]) := by
      simp [Cursor.span]
    rw [hb] at h
    simp only [hspan] at h
    cases hv : Text.literal? q (body ++ [q]) with
    | some value =>
      rw [hv] at h
      cases h
    | none =>
      rw [hv] at h
      cases h
      refine .literal hq ⟨p.reverse, rest, ?_⟩ hv
      rw [Cursor.text, closingQuote_eq hb]
      simp

end Lexical

/-- What is known of a reader, made more precise by what follows from the value that it ends with
and by what is known of its failures. -/
theorem Alike.sharpen {E E' : Failure → Prop} {Q' : α → Cursor → Prop} {r : Reader α}
    (h : Alike c E' Q' (r c₁) (r c₁)) (hok : ∀ a c', r c₁ = .ok a c' → Q' a c' → Q a c')
    (hfails : FailsAt (fun e _ => E e) r c₁) : Alike c E Q (r c₁) (r c₁) := by
  obtain ⟨_, hout⟩ := h
  cases hr : r c₁ with
  | ok a c' =>
    rw [hr] at hout
    exact alike_ok hout.1 (hok a c' hr hout.2)
  | error e c' =>
    rw [hr] at hout
    exact alike_error hout.1 (hfails e c' hr)

/-- What is known of the value is put together. -/
theorem Alike.both {E E' : Failure → Prop} {Q' : α → Cursor → Prop}
    {r r' : EStateM.Result Failure Cursor α} (h : Alike c E Q r r') (h' : Alike c E' Q' r r') :
    Alike c E (fun a c' => Q a c' ∧ Q' a c') r r' := by
  refine ⟨h.1, ?_⟩
  cases r with
  | ok a c' => exact ⟨h.2.1, h.2.2, h'.2.2⟩
  | error e c' => exact h.2

/-- What fails in the text of a position fails in the text of every position before it. -/
theorem FailsAt.since {block : Text → Except Failure Text} {r : Reader α} (h : c.Moves c₁)
    (hr : FailsAt (Mishap block c₁.text) r c₁) : FailsAt (Mishap block c.text) r c₁ := by
  rw [← h.text_eq]
  exact hr

def LinesRead (c : Cursor) (ls : List Text) (c' : Cursor) : Prop :=
  c.rest.lines = ls ++ c'.rest.lines ∨ (c'.rest = [] ∧ c.rest.lines = ls)

theorem LinesRead.line {ls : List Text} {l : Text} {c₂ : Cursor} (h : LinesRead c ls c₁)
    (hne : c₁.rest ≠ []) (hl : LineRead c₁ l c₂) : LinesRead c (ls ++ [l]) c₂ := by
  obtain h | ⟨hnil, _⟩ := h
  · rcases hl.2 with hr | ⟨hr, hend⟩
    · left
      rw [h, hr, Text.lines_append_break, Text.lines_of_not_mem hl.1, List.append_assoc]
    · right
      rw [h, hr, Text.lines_of_not_mem hl.1]
      exact ⟨hend, rfl⟩
  · exact absurd hnil hne

theorem LinesRead.exists_append {ls : List Text} (h : LinesRead c ls c₁) :
    ∃ after, c.rest.lines = ls ++ after := by
  obtain h | ⟨_, h⟩ := h
  · exact ⟨_, h⟩
  · exact ⟨[], by rw [h, List.append_nil]⟩

/-- The lines of a text before a line break and those after it. -/
theorem exists_lines_before (hstart : c.passed.head? = some '\n') :
    ∃ before, before ≠ [] ∧ c.text.lines = before ++ c.rest.lines := by
  obtain ⟨p, hp⟩ := List.head?_eq_some_iff.mp hstart
  refine ⟨Text.lines p.reverse, Text.splitWhen_ne_nil _ _, ?_⟩
  rw [Cursor.text, hp, List.reverse_cons, List.append_assoc, List.singleton_append,
    Text.lines_append_break]

end Reader

namespace Attribute

open Reader

variable {c c₁ : Cursor} {s : Settings} {block : Text → Except Failure Text}

theorem fails_scalar (h₁ : c.Moves c₁) : FailsAt (Mishap block c.text) (scalar s) c₁ := by
  refine (fails_peek h₁.1).bind (peek_alike anything h₁) fun x c₂ h₂ hx => ?_
  obtain ⟨rfl, t, ht⟩ := hx
  refine .ite (fun hq => ?_) (fun _ => .ite (fun _ => ?_) (fun _ => ?_))
  · exact (fails_quotedString h₂ ht hq).bind (quotedString_alike anything h₂)
      fun _ _ _ _ => failsAt_pure _
  · exact (fails_number h₂).bind (number_alike anything h₂) fun _ _ _ _ => failsAt_pure _
  · exact (fails_word rejects_mishap _ h₂).bind (word_alike anything _ h₂)
      fun _ _ _ _ => failsAt_pure _

theorem fails_itemTurn (close : Char) (h₁ : c.Moves c₁) :
    FailsAt (Mishap block c.text) (itemTurn s close) c₁ := by
  refine .after (indentation_alike h₁) fun _ c₂ h₂ _ => ?_
  refine (fails_peek h₂.1).bind (peek_alike anything h₂) fun x c₃ h₃ _ => ?_
  refine .ite (fun _ => failsAt_pure _) (fun _ => ?_)
  refine (fails_scalar h₃).bind (scalar_alike anything h₃) fun v c₄ h₄ _ => ?_
  refine .after (indentation_alike h₄) fun _ c₅ h₅ _ => ?_
  refine (fails_peek h₅.1).bind (peek_alike anything h₅) fun y c₆ h₆ _ => ?_
  refine .ite (fun _ => ?_) (fun _ => failsAt_pure _)
  exact (fails_symbol rejects_mishap _).bind (symbol_alike anything _ h₆)
    fun _ _ _ _ => failsAt_pure _

theorem fails_items (close : Char) (steps : Text) (h₁ : c.Moves c₁) :
    FailsAt (Mishap block c.text) (items s close steps) c₁ := by
  rw [items_eq]
  refine failsAt_iterate (I := fun _ _ => True) (Q := fun _ _ => True) (fun _ => .stalled)
    (fun _ c' h' _ => failsAt_gather (fails_itemTurn close h')) (fun _ c' h' _ => ?_) steps [] h₁
    trivial
  refine gather_alike ((itemTurn_alike anything close h').mono fun o _ _ ho => ?_)
  cases o with
  | none => trivial
  | some v => exact ⟨ho, trivial⟩

/-- A list is started at its opening bracket. -/
theorem fails_list {x : Char} {t : Text} (h₁ : c.Moves c₁) (hr : c₁.rest = x :: t)
    (hx : x = '(' ∨ x = '[') : FailsAt (Mishap block c.text) (list s) c₁ := by
  refine (fails_peek h₁.1).bind (peek_alike anything h₁) fun y c₂ h₂ hy => ?_
  obtain ⟨rfl, u, hu⟩ := hy
  obtain ⟨rfl, rfl⟩ : x = y ∧ t = u := List.cons_eq_cons.mp (hr.symm.trans hu)
  refine .ite (fun _ => ?_) (fun hnot => absurd hx hnot)
  refine .after (skip_alike h₂ hr) fun _ c₃ h₃ _ => ?_
  refine .after (allowance_alike h₃) fun steps c₄ h₄ ha => ?_
  obtain ⟨rfl, rfl⟩ := ha
  refine (fails_items _ _ h₄).bind (items_alike anything _ _ h₄ (by simp)) fun vs c₅ h₅ hv => ?_
  obtain ⟨v, hv⟩ := hv
  exact .after (skip_alike h₅ hv) fun _ _ _ _ => failsAt_pure _

/-! ## Block values -/

/-- A line that is not blank needs a margin to be compared with. -/
theorem fails_blockTurn {margin : Option Nat} (h₁ : c.Moves c₁)
    (hm : margin = none → ∀ k ∈ c₁.rest.lines, (∃ x ∈ k, Text.isBlank x = false) → Gapped c.text) :
    FailsAt (Mishap block c.text) (blockTurn margin) c₁ := by
  refine .after (atEnd_alike h₁) fun b c₂ h₂ hb => ?_
  obtain ⟨rfl, _⟩ := hb
  refine .ite (fun _ => failsAt_pure _) (fun _ => ?_)
  refine (fails_peekMargin h₂.1).bind (peekMargin_alike anything h₂) fun m c₃ h₃ hahead => ?_
  obtain ⟨rfl, hahead⟩ := hahead
  have hline : FailsAt (Mishap block c.text)
      (do return some (blankToEmpty (← Reader.line)) : Reader (Option Text)) c₃ :=
    .after (line_alike h₃) fun _ _ _ _ => failsAt_pure _
  cases m with
  | none => exact hline
  | some m =>
    cases margin with
    | none =>
      obtain ⟨k, ks, hks, _, hk⟩ := margin?_line hahead
      exact failsAt_throw (.margin (hm rfl k (by rw [hks]; exact List.mem_cons_self ..) hk))
    | some least => exact .ite (fun _ => failsAt_pure _) (fun _ => hline)

theorem fails_blockLines {margin : Option Nat} (steps : Text) (hc : c.Within)
    (hm : margin = none → ∀ k ∈ c.rest.lines, (∃ x ∈ k, Text.isBlank x = false) → Gapped c.text) :
    FailsAt (Mishap block c.text) (blockLines margin steps) c := by
  rw [blockLines_eq]
  refine failsAt_iterate (I := fun _ c' => ∃ rows, LinesRead c rows c') (Q := fun _ _ => True)
    (fun _ => .stalled) (fun _ c' h' hI => failsAt_gather (fails_blockTurn h' ?_))
    (fun _ c' h' hI => gather_alike ?_) steps [] (.refl hc) ⟨[], .inl rfl⟩
  · obtain ⟨rows, hrows⟩ := hI
    intro hnone k hk hnot
    obtain hlines | ⟨hnil, _⟩ := hrows
    · exact hm hnone k (by rw [hlines]; exact List.mem_append_right rows hk) hnot
    · -- there is no character on the line after the end of the text
      obtain ⟨x, hx, _⟩ := hnot
      rw [hnil] at hk
      rw [List.mem_singleton.mp hk] at hx
      cases hx
  · obtain ⟨rows, hrows⟩ := hI
    refine (blockTurn_alike anything margin h').mono fun o _ _ ho => ?_
    cases o with
    | none => trivial
    | some l =>
      refine ⟨ho.length_lt, ?_⟩
      obtain ⟨hne, l', hl, _⟩ := ho
      exact ⟨rows ++ [l'], hrows.line hne hl⟩

/-- The lines of a block are those that were read, but that blank ones are empty. -/
theorem blockLines_lines {margin : Option Nat} (hc : c.Within) :
    Alike c (fun _ => True) (fun ls c' => ∃ rows, LinesRead c rows c' ∧ ls = rows.map blankToEmpty)
      (blockLines margin (' ' :: c.rest) c) (blockLines margin (' ' :: c.rest) c) := by
  rw [blockLines_eq]
  refine iterate_alike
    (I := fun acc c' => ∃ rows, LinesRead c rows c' ∧ acc.reverse = rows.map blankToEmpty)
    (fun acc c' h' hI => ?_) _ _ [] (.refl hc) ⟨[], .inl rfl, rfl⟩ (by simp) (by simp)
  obtain ⟨rows, hrows, hacc⟩ := hI
  refine gather_alike ((blockTurn_alike anything margin h').mono fun o c'' h'' ho => ?_)
  cases o with
  | none =>
    obtain ⟨rfl, _⟩ := ho
    exact ⟨rows, hrows, hacc⟩
  | some l =>
    refine ⟨ho.length_lt, ?_⟩
    obtain ⟨hne, l', hl, rfl⟩ := ho
    exact ⟨rows ++ [l'], hrows.line hne hl, by simp [hacc]⟩

/-- A block value starts on a line of its own, and its text is inside of the text read. -/
theorem fails_blockValue (hc : c.Within) (hstart : c.passed.head? = some '\n') :
    FailsAt (Mishap block c.text) (blockValue block) c := by
  refine (fails_peekMargin hc).bind (peekMargin_alike anything (.refl hc)) fun m c₁ h₁ hm => ?_
  obtain ⟨rfl, hm⟩ := hm
  refine .after (allowance_alike h₁) fun steps c₂ h₂ ha => ?_
  obtain ⟨rfl, rfl⟩ := ha
  have hmargin : m = none → ∀ k ∈ c₂.rest.lines, (∃ x ∈ k, Text.isBlank x = false) →
      Gapped c₂.text := by
    rintro rfl k hk ⟨x, hx, hnot⟩
    obtain ⟨l, ls, hls, hblank⟩ := margin?_line hm
    obtain ⟨before, hbefore, hlines⟩ := exists_lines_before hstart
    rw [hls] at hk hlines
    refine ⟨before, l, ls, hbefore, hlines, hblank, k, ?_, x, hx, hnot⟩
    rcases List.mem_cons.mp hk with rfl | hk
    · rw [hblank x hx] at hnot
      cases hnot
    · exact hk
  refine (fails_blockLines _ hc hmargin).bind
    ((blockLines_alike anything hc hm).both (blockLines_lines hc)) fun ls c₃ _ hls => ?_
  obtain ⟨⟨hne, _⟩, rows, hrows, rfl⟩ := hls
  have hinside : Inside (Text.unlines (rows.map blankToEmpty)) c₂.text := by
    obtain ⟨before, hbefore, hlines⟩ := exists_lines_before hstart
    obtain ⟨after, hafter⟩ := hrows.exists_append
    exact ⟨before, rows, after, hbefore, by simpa using hne, by rw [hlines, hafter], rfl⟩
  intro e c' h
  simp only [Bind.bind, EStateM.bind, Reader.unread] at h
  cases hblock : block (Text.unlines (rows.map blankToEmpty)) with
  | ok html =>
    rw [hblock] at h
    cases h
  | error e' =>
    rw [hblock] at h
    cases h
    exact .block hinside hblock

/-- The value after a separator; only brackets start a list. -/
theorem fails_assigned {opens : Char → Bool} (hopens : ∀ x, opens x = true → x = '(' ∨ x = '[')
    (h₁ : c.Moves c₁) : FailsAt (Mishap block c.text) (assigned s block opens) c₁ := by
  refine .after (indentation_alike h₁) fun _ c₂ h₂ _ => ?_
  refine (fails_expectInput rejects_mishap h₂.1).bind (expectInput_alike anything h₂)
    fun _ c₃ h₃ _ => ?_
  refine (fails_peek h₃.1).bind (peek_alike anything h₃) fun x c₄ h₄ hx => ?_
  obtain ⟨rfl, t, ht⟩ := hx
  refine .ite (fun hbreak => ?_) (fun _ => .ite (fun hx => ?_) (fun _ => ?_))
  · refine .after (skip_alike h₄ ht) fun _ c₅ h₅ hs => ?_
    have hstart : c₅.passed.head? = some '\n' := by rw [hs.2, hbreak, List.head?_cons]
    have hB := (blockValue_alike h₅.1 (Nat.lt_succ_self _) (.self _ block)).since h₅
    exact (fails_blockValue h₅.1 hstart).since h₅ |>.bind hB fun _ _ _ _ => failsAt_pure _
  · exact (fails_list h₄ ht (hopens x hx)).bind (list_alike anything h₄)
      fun _ _ _ _ => failsAt_pure _
  · exact (fails_scalar h₄).bind (scalar_alike anything h₄) fun _ _ _ _ => failsAt_pure _

/-! ## Entries and dictionaries -/

theorem fails_bareKey (h₁ : c.Moves c₁) : FailsAt (Mishap block c.text) bareKey c₁ := by
  refine (fails_peek h₁.1).bind (peek_alike anything h₁) fun x c₂ h₂ hx => ?_
  obtain ⟨rfl, t, ht⟩ := hx
  refine .ite (fun hq => ?_) (fun _ => fails_word rejects_mishap _ h₂)
  refine (fails_quotedString h₂ ht hq).bind (quotedString_alike anything h₂) fun key _ _ _ => ?_
  exact .ite (fun _ => fails_reject rejects_mishap _) (fun _ => failsAt_pure _)

/-- A key in braces, with or without a colon in front, and what is read after it. -/
theorem fails_bracedKey {β : Type} {f : Text → Reader β} {x : Char} {t : Text} (h₁ : c.Moves c₁)
    (hx : c₁.rest = x :: t)
    (hf : ∀ key c₂, c.Moves c₂ → FailsAt (Mishap block c.text) (f key) c₂) :
    FailsAt (Mishap block c.text)
      (if x = ':' then do Reader.skip; let key ← Reader.word isDash; f key
        else do let key ← bareKey; f key) c₁ := by
  refine .ite (fun _ => ?_) (fun _ => ?_)
  · refine .after (skip_alike h₁ hx) fun _ c₂ h₂ _ => ?_
    exact (fails_word rejects_mishap _ h₂).bind (word_alike anything _ h₂)
      fun w c₃ h₃ _ => hf w c₃ h₃
  · exact (fails_bareKey h₁).bind (bareKey_alike anything h₁) fun key c₂ h₂ _ => hf key c₂ h₂

theorem fails_bracedEntry (h₁ : c.Moves c₁) :
    FailsAt (Mishap block c.text) (bracedEntry s block) c₁ := by
  refine (fails_peek h₁.1).bind (peek_alike anything h₁) fun x c₂ h₂ hx => ?_
  obtain ⟨rfl, t, ht⟩ := hx
  refine fails_bracedKey h₂ ht fun key c₃ h₃ => ?_
  refine .after (indentation_alike h₃) fun _ c₄ h₄ _ => ?_
  refine (fails_peek h₄.1).bind (peek_alike anything h₄) fun y c₅ h₅ _ => ?_
  refine .ite (fun _ => ?_) (fun _ => failsAt_pure _)
  refine (fails_symbol rejects_mishap _).bind (symbol_alike anything _ h₅) fun _ c₆ h₆ _ => ?_
  exact (fails_assigned (by simp) h₆).bind ((assigned_alike h₆.1 (.self _ block)).since h₆)
    fun _ _ _ _ => failsAt_pure _

theorem fails_parenEntry (h₁ : c.Moves c₁) :
    FailsAt (Mishap block c.text) (parenEntry s block) c₁ := by
  refine (fails_word rejects_mishap _ h₁).bind (word_alike anything _ h₁) fun key c₂ h₂ _ => ?_
  refine (fails_peek h₂.1).bind (peek_alike anything h₂) fun x c₃ h₃ _ => ?_
  refine .ite (fun _ => ?_) (fun _ => ?_)
  · exact (fails_unexpected h₃).bind (unexpected_alike anything (Q := fun _ _ => False) h₃)
      fun _ _ _ h => h.elim
  · refine .after (indentation_alike h₃) fun _ c₄ h₄ _ => ?_
    refine (fails_peek h₄.1).bind (peek_alike anything h₄) fun y c₅ h₅ _ => ?_
    refine .ite (fun _ => ?_) (fun _ => failsAt_pure _)
    refine (fails_symbol rejects_mishap _).bind (symbol_alike anything _ h₅) fun _ c₆ h₆ _ => ?_
    exact (fails_assigned (by simp) h₆).bind ((assigned_alike h₆.1 (.self _ block)).since h₆)
      fun _ _ _ _ => failsAt_pure _

theorem fails_record (d : Attributes) (entry : Text × Value) {t : Text} :
    FailsAt (Mishap block t) (record d entry) c :=
  .ite (fun _ => fails_reject rejects_mishap _) (fun _ => failsAt_pure _)

theorem fails_parenTurn (d : Attributes) (h₁ : c.Moves c₁) :
    FailsAt (Mishap block c.text) (parenTurn s block d) c₁ := by
  refine .after (gap_alike h₁) fun _ c₂ h₂ _ => ?_
  refine .after (atEnd_alike h₂) fun _ c₃ h₃ _ => ?_
  refine .ite (fun _ => fails_reject rejects_mishap _) (fun _ => ?_)
  refine (fails_peek h₃.1).bind (peek_alike anything h₃) fun x c₄ h₄ hx => ?_
  obtain ⟨rfl, t, ht⟩ := hx
  refine .ite (fun _ => .after (skip_alike h₄ ht) fun _ _ _ _ => failsAt_pure _) (fun _ => ?_)
  refine (fails_parenEntry h₄).bind ((parenEntry_alike h₄.1 (.self _ block)).since h₄)
    fun entry c₅ h₅ _ => ?_
  refine (fails_record d entry).bind (record_alike anything d entry h₅) fun d' c₆ h₆ _ => ?_
  refine .after (indentation_alike h₆) fun _ c₇ h₇ _ => ?_
  refine (fails_peek h₇.1).bind (peek_alike anything h₇) fun y c₈ _ _ => ?_
  exact .ite (fun _ => fails_reject rejects_mishap _) (fun _ => failsAt_pure _)

theorem fails_bracedTurn (d : Attributes) (h₁ : c.Moves c₁) :
    FailsAt (Mishap block c.text) (bracedTurn s block d) c₁ := by
  refine .after (gap_alike h₁) fun _ c₂ h₂ _ => ?_
  refine .after (atEnd_alike h₂) fun _ c₃ h₃ _ => ?_
  refine .ite (fun _ => fails_reject rejects_mishap _) (fun _ => ?_)
  refine (fails_peek h₃.1).bind (peek_alike anything h₃) fun x c₄ h₄ hx => ?_
  obtain ⟨rfl, t, ht⟩ := hx
  refine .ite (fun _ => .after (skip_alike h₄ ht) fun _ _ _ _ => failsAt_pure _) (fun _ => ?_)
  refine (fails_bracedEntry h₄).bind ((bracedEntry_alike h₄.1 (.self _ block)).since h₄)
    fun entry c₅ h₅ _ => ?_
  refine (fails_record d entry).bind (record_alike anything d entry h₅) fun d' c₆ h₆ _ => ?_
  refine .after (indentation_alike h₆) fun _ c₇ h₇ _ => ?_
  refine (fails_peek h₇.1).bind (peek_alike anything h₇) fun y c₈ h₈ _ => ?_
  refine .ite (fun _ => ?_) (fun _ => failsAt_pure _)
  exact (fails_symbol rejects_mishap _).bind (symbol_alike anything _ h₈)
    fun _ _ _ _ => failsAt_pure _

/-- A dictionary is started at its opening bracket. -/
theorem fails_dictionary {x : Char} {t : Text} (h₁ : c.Moves c₁) (hr : c₁.rest = x :: t)
    (hx : x = '(' ∨ x = '{') : FailsAt (Mishap block c.text) (dictionary s block) c₁ := by
  -- the loop over the entries starts after the opening bracket
  have hloop : ∀ {turn : Attributes → Reader (Attributes ⊕ Attributes)},
      (∀ d c₂, c.Moves c₂ → FailsAt (Mishap block c.text) (turn d) c₂) →
      (∀ d (c₂ : Cursor), c₂.Within → Alike c₂ (fun _ => True)
        (Turned (fun _ _ => True) (fun _ _ => True) c₂) (turn d c₂) (turn d c₂)) →
      FailsAt (Mishap block c.text)
        (do Reader.skip; iterate turn (← Reader.allowance) [] : Reader Attributes) c₁ := by
    intro turn hfails hturn
    refine .after (skip_alike h₁ hr) fun _ c₂ h₂ _ => ?_
    refine .after (allowance_alike h₂) fun steps c₃ h₃ _ => ?_
    refine failsAt_iterate (I := fun _ _ => True) (Q := fun _ _ => True) (fun _ => .stalled)
      (fun d c' h' _ => hfails d c' h') (fun d c' h' _ => ?_) steps [] h₃ trivial
    exact ((hturn d c' h'.1).since h').mono fun _ _ _ hr => hr.2
  refine (fails_peek h₁.1).bind (peek_alike anything h₁) fun y c₂ h₂ hy => ?_
  obtain ⟨rfl, u, hu⟩ := hy
  obtain ⟨rfl, rfl⟩ : x = y ∧ t = u := List.cons_eq_cons.mp (hr.symm.trans hu)
  simp only [parenEntries_eq, bracedEntries_eq]
  refine .ite (fun _ => ?_) (fun hp => .ite (fun _ => ?_) (fun hb => ?_))
  · exact hloop (fun d _ => fails_parenTurn d) fun d _ hc => parenTurn_alike d hc (.self _ block)
  · exact hloop (fun d _ => fails_bracedTurn d) fun d _ hc => bracedTurn_alike d hc (.self _ block)
  · exact absurd (hx.resolve_left hp) hb

end Attribute

end Haml
