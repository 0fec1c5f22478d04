import Haml.Proofs.Compile.Termination
import Haml.Proofs.Reading.Exact
import Haml.Proofs.Reading.Mishaps
import Haml.Proofs.Text.LineEnds
import Mathlib.Data.List.Forall2

/-!
Reading a text that has carriage returns before its line breaks. `Twin` compares the outcome of a
reader with its outcome in the text that has them. Main statements: how outcomes are compared along
actions, tests and loops, and the comparison for the lexical readers.
-/
namespace Haml

open Text (lead withReturns)

/-- The same position in the text with carriage returns before the line breaks. -/
def Cursor.withReturns (c : Cursor) : Cursor :=
  { c with
    passed := (Text.withReturns c.passed.reverse).reverse
    rest := Text.withReturns c.rest }

namespace Cursor

/-- Passing over characters, and over what is written for them. -/
theorem withReturns_append (w p r : Text) :
    Cursor.withReturns ⟨w.reverse ++ p, r, 0, 0⟩ =
      ⟨(Text.withReturns w).reverse ++ (Text.withReturns p.reverse).reverse,
        Text.withReturns r, 0, 0⟩ := by
  simp [Cursor.withReturns]

/-- A movement over something goes over something in the text with carriage returns. -/
theorem Moves.withReturns_lt {c c' : Cursor} (h : c.Moves c')
    (hlt : c'.rest.length < c.rest.length) :
    c'.withReturns.rest.length < c.withReturns.rest.length := by
  obtain ⟨-, taken, hrest, -⟩ := h
  show (Text.withReturns c'.rest).length < (Text.withReturns c.rest).length
  rw [hrest]
  apply Text.length_withReturns_lt
  rintro rfl
  simp [hrest] at hlt

end Cursor

namespace Reader

variable {α β σ : Type}

/-- The outcomes `r` of a reader and `r'` of a reader of the text with carriage returns. If both end
with values, these satisfy `K`, and the positions are the same, reached from `c`; otherwise both
fail, or only the second does, with a failure that satisfies `S`. -/
inductive Twin (c : Cursor) (S : Failure → Prop) (K : α → α → Cursor → Prop) :
    EStateM.Result Failure Cursor α → EStateM.Result Failure Cursor α → Prop
  | ok {a a' : α} {c' : Cursor} (h : c.Moves c') (hK : K a a' c') :
      Twin c S K (.ok a c') (.ok a' c'.withReturns)
  | error {e e' : Failure} {c₁ c₂ : Cursor} : Twin c S K (.error e c₁) (.error e' c₂)
  | snag {r : EStateM.Result Failure Cursor α} {e : Failure} {c₁ : Cursor} (h : S e) :
      Twin c S K r (.error e c₁)

variable {c c₁ : Cursor} {S : Failure → Prop} {K : α → α → Cursor → Prop}
  {L : β → β → Cursor → Prop}

theorem Twin.bind {x x' : Reader α} {f f' : α → Reader β} {c₁' : Cursor}
    (hx : Twin c S K (x c₁) (x' c₁'))
    (hf : ∀ a a' c₂, c.Moves c₂ → K a a' c₂ → Twin c S L (f a c₂) (f' a' c₂.withReturns)) :
    Twin c S L ((x >>= f) c₁) ((x' >>= f') c₁') := by
  simp only [Bind.bind, EStateM.bind]
  generalize x c₁ = r at hx ⊢
  generalize x' c₁' = r' at hx ⊢
  cases hx with
  | ok h hK => exact hf _ _ _ h hK
  | error => exact .error
  | snag h => exact .snag h

theorem Twin.mono {K' : α → α → Cursor → Prop} {r r' : EStateM.Result Failure Cursor α}
    (h : Twin c S K r r') (hK : ∀ a a' c', c.Moves c' → K a a' c' → K' a a' c') :
    Twin c S K' r r' := by
  cases h with
  | ok h hk => exact .ok h (hK _ _ _ h hk)
  | error => exact .error
  | snag h => exact .snag h

/-- What is known of the first outcome is known of its value in both. -/
theorem Twin.and {E : Failure → Prop} {Q : α → Cursor → Prop}
    {r r' : EStateM.Result Failure Cursor α} (h : Twin c S K r r') (hQ : Alike c E Q r r) :
    Twin c S (fun a a' c' => K a a' c' ∧ Q a c') r r' := by
  cases h with
  | ok h hk => exact .ok h ⟨hk, hQ.2.2⟩
  | error => exact .error
  | snag h => exact .snag h

/-- What is reached from a position is reached from every position before it. -/
theorem Twin.since {r r' : EStateM.Result Failure Cursor α} (h : Twin c₁ S K r r')
    (h₁ : c.Moves c₁) : Twin c S (fun a a' c' => c₁.Moves c' ∧ K a a' c') r r' := by
  cases h with
  | ok h hk => exact .ok (h₁.trans h) ⟨h, hk⟩
  | error => exact .error
  | snag h => exact .snag h

theorem Twin.ite {q q' : Prop} [Decidable q] [Decidable q'] {x x' y y' : Reader α} {c₁' : Cursor}
    (h : q' ↔ q) (hx : q → Twin c S K (x c₁) (x' c₁')) (hy : ¬ q → Twin c S K (y c₁) (y' c₁')) :
    Twin c S K ((if q then x else y) c₁) ((if q' then x' else y') c₁') := by
  by_cases hq : q
  · rw [if_pos hq, if_pos (h.mpr hq)]
    exact hx hq
  · rw [if_neg hq, if_neg (h.not.mpr hq)]
    exact hy hq

/-- The first of two actions is refused in the text with carriage returns. -/
theorem Twin.refused {r : EStateM.Result Failure Cursor β} {x' : Reader α} {f' : α → Reader β}
    {e : Failure} {c₁' c₂' : Cursor} (hx : x' c₁' = .error e c₂') (he : S e) :
    Twin c S L r ((x' >>= f') c₁') := by
  simp only [Bind.bind, EStateM.bind, hx]
  exact .snag he

theorem Twin.then_right {q' : Prop} [Decidable q'] {r : EStateM.Result Failure Cursor α}
    {x' y' : Reader α} {c₁' : Cursor} (hq : q') (hx : Twin c S K r (x' c₁')) :
    Twin c S K r ((if q' then x' else y') c₁') := by
  rwa [if_pos hq]

theorem Twin.else_right {q' : Prop} [Decidable q'] {r : EStateM.Result Failure Cursor α}
    {x' y' : Reader α} {c₁' : Cursor} (hq : ¬ q') (hy : Twin c S K r (y' c₁')) :
    Twin c S K r ((if q' then x' else y') c₁') := by
  rwa [if_neg hq]

theorem twin_pure {a a' : α} (h : c.Moves c₁) (hK : K a a' c₁) :
    Twin c S K ((pure a : Reader α) c₁) ((pure a' : Reader α) c₁.withReturns) :=
  .ok h hK

theorem twin_throw {e e' : Failure} {c₁' : Cursor} :
    Twin c S K ((throw e : Reader α) c₁) ((throw e' : Reader α) c₁') :=
  .error

theorem twin_reject {fault fault' : Fault} {c₁' : Cursor} :
    Twin c S K ((reject fault : Reader α) c₁) ((reject fault' : Reader α) c₁') :=
  .error

/-- A loop whose turns correspond. Those that go on pass over something, in both texts. -/
theorem iterate_twin {turn : σ → Reader (σ ⊕ α)} {I : σ → σ → Prop} {J : α → α → Prop}
    (hadvances : Advances turn)
    (hturn : ∀ s s' c₁, c.Moves c₁ → I s s' →
      Twin c S (fun r r' _ => Sum.LiftRel I J r r') (turn s c₁) (turn s' c₁.withReturns))
    (steps steps' : Text) {s s' : σ} (h₁ : c.Moves c₁) (hI : I s s')
    (hsteps : c₁.rest.length < steps.length)
    (hsteps' : c₁.withReturns.rest.length < steps'.length) :
    Twin c S (fun a a' _ => J a a') (iterate turn steps s c₁)
      (iterate turn steps' s' c₁.withReturns) := by
  induction steps generalizing steps' s s' c₁ with
  | nil => simp at hsteps
  | cons x steps ih =>
    cases steps' with
    | nil => simp at hsteps'
    | cons x' steps' =>
      simp only [List.length_cons] at hsteps hsteps'
      have hout := hturn s s' c₁ h₁ hI
      simp only [iterate, Bind.bind, EStateM.bind]
      generalize turn s' c₁.withReturns = r' at hout ⊢
      cases hr : turn s c₁ with
      | error e c₂ =>
        rw [hr] at hout
        cases hout with
        | error => exact .error
        | snag h => exact .snag h
      | ok r c₂ =>
        rw [hr] at hout
        cases hout with
        | snag h => exact .snag h
        | ok h₂ hr' =>
          cases hr' with
          | inr hJ => exact .ok h₂ hJ
          | inl hI' =>
            obtain ⟨hmoves, hlt⟩ := hadvances s c₁ _ c₂ h₁.1 hr
            have hlt' := hmoves.withReturns_lt hlt
            exact ih steps' h₂ hI' (by omega) (by omega)

theorem Runs.twin {turn : σ → Reader (σ ⊕ α)} {loop : Text → Reader α} {I : σ → σ → Prop}
    {J : α → α → Prop} {s : σ} (R : Runs turn s loop)
    (hturn : ∀ s s' c₁, c.Moves c₁ → I s s' →
      Twin c S (fun r r' _ => Sum.LiftRel I J r r') (turn s c₁) (turn s' c₁.withReturns))
    (h₁ : c.Moves c₁) (hI : I s s) :
    Twin c S (fun a a' _ => J a a') (loop (' ' :: c₁.rest) c₁)
      (loop (' ' :: c₁.withReturns.rest) c₁.withReturns) := by
  rw [R.repeats, R.repeats]
  exact iterate_twin R.advances hturn _ _ h₁ hI (by simp) (by simp)

theorem gather_twin {R : α → α → Prop} {turn : Reader (Option α)} {acc acc' : List α} {c₁' : Cursor}
    (h : Twin c S (fun o o' _ => Option.Rel R o o') (turn c₁) (turn c₁'))
    (hacc : List.Forall₂ R acc acc') :
    Twin c S (fun r r' _ => Sum.LiftRel (List.Forall₂ R) (List.Forall₂ R) r r')
      (gather turn acc c₁) (gather turn acc' c₁') := by
  apply h.bind
  intro o o' c₂ h₂ ho
  cases ho with
  | none => exact twin_pure h₂ (.inr (List.rel_reverse hacc))
  | some hR => exact twin_pure h₂ (.inl (.cons hR hacc))

/-! ## The lexical readers -/

theorem peek_twin (h₁ : c.Moves c₁) :
    Twin c S (fun x x' c₂ => x' = lead x ∧ c₂ = c₁ ∧ ∃ t, c₁.rest = x :: t)
      (peek c₁) (peek c₁.withReturns) := by
  obtain ⟨p, r, rfl⟩ := Cursor.exists_eq_of_within h₁.1
  cases r with
  | nil => exact .error
  | cons x t =>
    have hpeek : peek (Cursor.withReturns ⟨p, x :: t, 0, 0⟩) =
        .ok (lead x) (Cursor.withReturns ⟨p, x :: t, 0, 0⟩) := by
      by_cases hx : x = '\n'
      · subst hx
        rfl
      · simp [peek, Cursor.withReturns, Cursor.ahead, Text.withReturns_cons hx, lead, hx]
    rw [hpeek]
    exact .ok h₁ ⟨rfl, rfl, t, rfl⟩

theorem peek?_twin (h₁ : c.Moves c₁) :
    Twin c S (fun o o' c₂ => o' = o.map lead ∧ c₂ = c₁ ∧ o = c₁.rest.head?)
      (peek? c₁) (peek? c₁.withReturns) := by
  obtain ⟨p, r, rfl⟩ := Cursor.exists_eq_of_within h₁.1
  cases r with
  | nil => exact .ok h₁ ⟨rfl, rfl, rfl⟩
  | cons x t =>
    have hpeek : peek? (Cursor.withReturns ⟨p, x :: t, 0, 0⟩) =
        .ok (some (lead x)) (Cursor.withReturns ⟨p, x :: t, 0, 0⟩) := by
      by_cases hx : x = '\n'
      · subst hx
        rfl
      · simp [peek?, Cursor.withReturns, Cursor.ahead, Text.withReturns_cons hx, lead, hx]
    rw [hpeek]
    exact .ok h₁ ⟨rfl, rfl, rfl⟩

theorem atEnd_twin (h₁ : c.Moves c₁) :
    Twin c S (fun b b' c₂ => b' = b ∧ c₂ = c₁ ∧ (b = true ↔ c₁.rest = []))
      (atEnd c₁) (atEnd c₁.withReturns) := by
  have hsame : c₁.withReturns.atEnd = c₁.atEnd := by
    cases hr : c₁.rest with
    | nil => simp [Cursor.atEnd, Cursor.withReturns, hr]
    | cons x t =>
      by_cases hx : x = '\n'
      · simp [Cursor.atEnd, Cursor.withReturns, hr, hx]
      · simp [Cursor.atEnd, Cursor.withReturns, hr, Text.withReturns_cons hx]
  apply Twin.ok h₁
  exact ⟨hsame, rfl, by simp [Cursor.atEnd, h₁.1.2]⟩

theorem get_twin (h₁ : c.Moves c₁) :
    Twin c S (fun s s' c₂ => s = c₁ ∧ s' = c₁.withReturns ∧ c₂ = c₁)
      ((get : Reader Cursor) c₁) ((get : Reader Cursor) c₁.withReturns) :=
  .ok h₁ ⟨rfl, rfl, rfl⟩

theorem skip_twin {x : Char} {t : Text} (h₁ : c.Moves c₁) (hr : c₁.rest = x :: t) (hx : x ≠ '\n') :
    Twin c S (fun _ _ c₂ => c₁.rest = x :: c₂.rest ∧ c₂.passed = x :: c₁.passed)
      (skip c₁) (skip c₁.withReturns) := by
  obtain ⟨p, r, rfl⟩ := Cursor.exists_eq_of_within h₁.1
  obtain rfl : r = x :: t := hr
  have hnext : Cursor.next (Cursor.withReturns ⟨p, x :: t, 0, 0⟩) =
      Cursor.withReturns ⟨x :: p, t, 0, 0⟩ := by
    simp [Cursor.next, Cursor.withReturns, Text.withReturns_cons hx]
  have hskip : skip (Cursor.withReturns ⟨p, x :: t, 0, 0⟩) =
      .ok () (Cursor.withReturns ⟨x :: p, t, 0, 0⟩) := by
    rw [skip, hnext]
  rw [hskip]
  exact .ok (h₁.trans (@Cursor.moves_append p [x] t)) ⟨rfl, rfl⟩

theorem allowance_twin (h₁ : c.Moves c₁) :
    Twin c S (fun t t' c₂ => c₂ = c₁ ∧ t = ' ' :: c₁.rest ∧ t' = ' ' :: c₁.withReturns.rest)
      (allowance c₁) (allowance c₁.withReturns) := by
  apply Twin.ok h₁
  simp [Cursor.ahead, Cursor.withReturns, h₁.1.2]

theorem takeWhile_eq (q : Char → Bool) (p r : Text) :
    takeWhile q ⟨p, r, 0, 0⟩ =
      .ok (r.takeWhile q) ⟨(r.takeWhile q).reverse ++ p, r.dropWhile q, 0, 0⟩ := by
  cases r with
  | nil => rfl
  | cons x r => simp [takeWhile, Cursor.ahead, Cursor.span, Cursor.past, List.reverseAux_eq]

/-- A run of characters to which both characters of a line end belong, or none. -/
theorem run_twin (q : Char → Bool) (hq : q '\r' = q '\n') (h₁ : c.Moves c₁) :
    Twin c S (fun t t' c₂ => t' = withReturns t ∧ t = c₁.rest.takeWhile q ∧ c₁.rest = t ++ c₂.rest)
      (takeWhile q c₁) (takeWhile q c₁.withReturns) := by
  obtain ⟨p, r, rfl⟩ := Cursor.exists_eq_of_within h₁.1
  obtain ⟨htake, hdrop⟩ := Text.span_withReturns hq r
  have hsplit := List.takeWhile_append_dropWhile (p := q) (l := r)
  have hm : Cursor.Moves ⟨p, r, 0, 0⟩ ⟨(r.takeWhile q).reverse ++ p, r.dropWhile q, 0, 0⟩ :=
    ⟨⟨rfl, rfl⟩, r.takeWhile q, hsplit.symm, rfl⟩
  rw [takeWhile_eq, show Cursor.withReturns ⟨p, r, 0, 0⟩ =
    ⟨(withReturns p.reverse).reverse, withReturns r, 0, 0⟩ from rfl, takeWhile_eq, htake, hdrop,
    ← Cursor.withReturns_append]
  exact .ok (h₁.trans hm) ⟨rfl, rfl, hsplit.symm⟩

/-- A run of characters that ends with the line at the latest. -/
theorem takeWhile_twin (q : Char → Bool) (hn : q '\n' = false) (hr : q '\r' = false)
    (h₁ : c.Moves c₁) :
    Twin c S (fun t t' c₂ => t' = t ∧ t = c₁.rest.takeWhile q ∧ c₁.rest = t ++ c₂.rest)
      (takeWhile q c₁) (takeWhile q c₁.withReturns) := by
  apply (run_twin q (hr.trans hn.symm) h₁).mono
  rintro t t' c₂ - ⟨rfl, ht, hrest⟩
  refine ⟨Text.withReturns_of_not_mem fun hmem => ?_, ht, hrest⟩
  rw [ht] at hmem
  rw [List.all_eq_true.mp List.all_takeWhile _ hmem] at hn
  cases hn

theorem indentation_twin (h₁ : c.Moves c₁) :
    Twin c S (fun t t' c₂ => t' = t ∧ t = c₁.rest.takeWhile Text.isIndent ∧ c₁.rest = t ++ c₂.rest)
      (indentation c₁) (indentation c₁.withReturns) :=
  takeWhile_twin _ rfl rfl h₁

theorem accept_twin {x : Char} (hn : x ≠ '\n') (hr : x ≠ '\r') (h₁ : c.Moves c₁) :
    Twin c S (fun b b' c₂ => b' = b ∧ ((b = true ∧ c₁.rest = x :: c₂.rest) ∨ (b = false ∧ c₂ = c₁)))
      (accept x c₁) (accept x c₁.withReturns) := by
  apply (peek?_twin h₁).bind
  rintro o _ c₂ h₂ ⟨rfl, rfl, ho⟩
  apply Twin.ite
  · cases o with
    | none => simp
    | some y => simp [Text.lead_eq_iff hn hr]
  · intro hx
    obtain ⟨t, ht⟩ := List.head?_eq_some_iff.mp (ho.symm.trans hx)
    apply (skip_twin h₂ ht hn).bind
    rintro _ _ c₃ h₃ ⟨hrest, -⟩
    exact twin_pure h₃ ⟨rfl, .inl ⟨rfl, hrest⟩⟩
  · intro _
    exact twin_pure h₂ ⟨rfl, .inr ⟨rfl, rfl⟩⟩

theorem expectInput_twin (h₁ : c.Moves c₁) :
    Twin c S (fun _ _ c₂ => c₂ = c₁) (expectInput c₁) (expectInput c₁.withReturns) := by
  apply (atEnd_twin h₁).bind
  rintro b _ c₂ h₂ ⟨rfl, rfl, -⟩
  apply Twin.ite Iff.rfl
  · intro _
    exact twin_reject
  · intro _
    exact twin_pure h₂ rfl

theorem unexpected_twin (h₁ : c.Moves c₁) :
    Twin c S K ((unexpected : Reader α) c₁) ((unexpected : Reader α) c₁.withReturns) := by
  apply (peek_twin h₁).bind
  intro _ _ _ _ _
  exact twin_reject

theorem peekMargin_twin (h₁ : c.Moves c₁) :
    Twin c S (fun m m' c₂ => m' = m ∧ c₂ = c₁ ∧ margin? c₁.rest = .ok m)
      (peekMargin c₁) (peekMargin c₁.withReturns) := by
  obtain ⟨p, r, rfl⟩ := Cursor.exists_eq_of_within h₁.1
  have hsame : margin? (Cursor.withReturns ⟨p, r, 0, 0⟩).ahead = margin? r :=
    Text.margin?_withReturns r
  unfold peekMargin
  rw [hsame, show Cursor.ahead ⟨p, r, 0, 0⟩ = r from rfl]
  cases hm : margin? r with
  | ok m => exact .ok h₁ ⟨rfl, rfl, rfl⟩
  | error e => exact .error

/-- What is read exactly in both texts. -/
theorem Reads.twin {r : Reader α} {w rest : Text} {a a' : α} (hr : Reads r w a rest)
    (hr' : Reads r (withReturns w) a' (withReturns rest)) (h₁ : c.Moves c₁)
    (hrest : c₁.rest = w ++ rest) (hK : ∀ c₂ : Cursor, c₂.rest = rest → K a a' c₂) :
    Twin c S K (r c₁) (r c₁.withReturns) := by
  obtain ⟨p, u, rfl⟩ := Cursor.exists_eq_of_within h₁.1
  obtain rfl : u = w ++ rest := hrest
  have hout := hr' (withReturns p.reverse).reverse
  rw [← Text.withReturns_append, ← Cursor.withReturns_append] at hout
  rw [hr p, show Cursor.withReturns ⟨p, w ++ rest, 0, 0⟩ =
    ⟨(withReturns p.reverse).reverse, withReturns (w ++ rest), 0, 0⟩ from rfl, hout]
  exact .ok (h₁.trans Cursor.moves_append) (hK _ rfl)

/-- The rest of a line is the same but for the carriage return that ends it. -/
theorem line_twin (h₁ : c.Moves c₁) :
    Twin c S (fun l l' c₂ => (l' = l ∧ c₁.rest = l ∧ c₂.rest = []) ∨
        (l' = l ++ ['\r'] ∧ c₁.rest = l ++ '\n' :: c₂.rest)) (line c₁) (line c₁.withReturns) := by
  by_cases hbreak : '\n' ∈ c₁.rest
  · obtain ⟨l, v, hrest, hl⟩ := List.eq_append_cons_of_mem hbreak
    have hline' : Reads line (withReturns (l ++ ['\n'])) (l ++ ['\r']) (withReturns v) := by
      have hl' : '\n' ∉ l ++ ['\r'] := by simp [hl]
      have hreads := reads_line hl' (withReturns v)
      rw [List.append_assoc] at hreads
      rwa [Text.withReturns_append, Text.withReturns_of_not_mem hl]
    apply (reads_line hl v).twin hline' h₁ (by simp [hrest])
    rintro c₂ rfl
    exact .inr ⟨rfl, hrest⟩
  · have hline' : Reads line (withReturns c₁.rest) c₁.rest (withReturns []) := by
      rw [Text.withReturns_of_not_mem hbreak]
      exact reads_line_end hbreak
    apply (reads_line_end hbreak).twin hline' h₁ (by simp)
    intro c₂ hc₂
    exact .inl ⟨rfl, rfl, hc₂⟩

theorem line?_twin (h₁ : c.Moves c₁) :
    Twin c S (fun o o' _ => Option.Rel (fun l l' => l' = l ∨ l' = l ++ ['\r']) o o')
      (line? c₁) (line? c₁.withReturns) := by
  apply (atEnd_twin h₁).bind
  rintro b _ c₂ h₂ ⟨rfl, rfl, -⟩
  apply Twin.ite Iff.rfl
  · intro _
    exact twin_pure h₂ .none
  · intro _
    apply (line_twin h₂).bind
    intro l l' c₃ h₃ hl
    exact twin_pure h₃ (.some (hl.imp (·.1) (·.1)))

theorem number_twin (h₁ : c.Moves c₁) :
    Twin c S (fun n n' _ => n' = n) (number c₁) (number c₁.withReturns) := by
  apply (takeWhile_twin _ (by decide) (by decide) h₁).bind
  rintro n _ c₂ h₂ ⟨rfl, -⟩
  apply (peek_twin h₂).bind
  rintro x _ c₃ h₃ -
  exact twin_pure h₃ rfl

theorem word_twin {extra : Char → Bool} (hn : extra '\n' = false) (hr : extra '\r' = false)
    (h₁ : c.Moves c₁) :
    Twin c S (fun w w' c₂ => w' = w ∧ c₁.rest = w ++ c₂.rest) (word extra c₁)
      (word extra c₁.withReturns) := by
  have hwn : (Text.isWord '\n' || extra '\n') = false := by rw [hn]; decide
  have hwr : (Text.isWord '\r' || extra '\r') = false := by rw [hr]; decide
  apply (expectInput_twin h₁).bind
  rintro _ _ c₂ h₂ rfl
  apply (peek_twin h₂).bind
  rintro x _ c₃ h₃ ⟨rfl, rfl, -⟩
  apply Twin.ite
  · have hsame := Text.apply_lead (fun y => Text.isWord y || extra y) (hwr.trans hwn.symm) x
    exact iff_of_eq (congrArg (· = true) hsame)
  · intro _
    apply (takeWhile_twin (fun y => Text.isWord y || extra y) hwn hwr h₃).mono
    rintro w w' c₄ - ⟨hw, -, hrest⟩
    exact ⟨hw, hrest⟩
  · intro _
    exact twin_reject

theorem symbol_error {w r : Text} (p : Text) (h : r.take w.length ≠ w) :
    symbol [w] ⟨p, r, 0, 0⟩ =
      .error (.rejected (.expected [w]) (some (Cursor.context ⟨p, r, 0, 0⟩))) ⟨p, r, 0, 0⟩ := by
  simp [symbol, Cursor.piece, h, reject]

theorem symbol_twin {w : Text} (hn : '\n' ∉ w) (hr : '\r' ∉ w) (h₁ : c.Moves c₁) :
    Twin c S (fun _ _ c₂ => c₁.rest = w ++ c₂.rest) (symbol [w] c₁)
      (symbol [w] c₁.withReturns) := by
  obtain ⟨p, u, rfl⟩ := Cursor.exists_eq_of_within h₁.1
  by_cases hw : u.take w.length = w
  · have hsplit : u = w ++ u.drop w.length := by
      conv_lhs => rw [← List.take_append_drop w.length u, hw]
    have hsymbol' : Reads (symbol [w]) (withReturns w) w (withReturns (u.drop w.length)) := by
      rw [Text.withReturns_of_not_mem hn]
      exact reads_symbol w _
    apply (reads_symbol w _).twin hsymbol' h₁ hsplit
    rintro c₂ hc₂
    rw [hc₂]
    exact hsplit
  · have hw' : (withReturns u).take w.length ≠ w := by
      rwa [ne_eq, Text.take_withReturns_eq_iff hn hr]
    rw [symbol_error p hw, show symbol [w] (Cursor.withReturns ⟨p, u, 0, 0⟩) = _ from
      symbol_error _ hw']
    exact .error

theorem quotedString_error (p : Text) {x : Char} (r : Text) (hx : isQuote x = false) :
    quotedString ⟨p, x :: r, 0, 0⟩ = .error .misplaced ⟨p, x :: r, 0, 0⟩ := by
  simp [quotedString, Cursor.ahead, hx]

/-- A quoted string fails if it has no end or no value. -/
theorem quotedString_failed (p : Text) {x : Char} {r : Text} (hx : isQuote x = true)
    (h : closingQuote x x r = none ∨
      ∃ body rest, closingQuote x x r = some (body, rest) ∧ Text.literal? x (body ++ [x]) = none) :
    ∃ e c', quotedString ⟨p, x :: r, 0, 0⟩ = .error e c' := by
  rcases h with h | ⟨body, rest, h, hvalue⟩
  · simp [quotedString, Cursor.ahead, hx, h, reject]
  · simp [quotedString, Cursor.ahead, hx, h, Cursor.span, hvalue]

/-- A quoted string has the same value. -/
theorem quotedString_twin (hcr : '\r' ∉ c.text) (h₁ : c.Moves c₁) :
    Twin c S (fun v v' _ => v' = v) (quotedString c₁) (quotedString c₁.withReturns) := by
  rw [← h₁.text_eq] at hcr
  obtain ⟨p, u, rfl⟩ := Cursor.exists_eq_of_within h₁.1
  cases u with
  | nil => exact .error
  | cons x t =>
    by_cases hn : x = '\n'
    · subst hn
      exact .error
    have hcursor : Cursor.withReturns ⟨p, x :: t, 0, 0⟩ =
        ⟨(withReturns p.reverse).reverse, x :: withReturns t, 0, 0⟩ := by
      rw [← Text.withReturns_cons hn]
      rfl
    cases hx : isQuote x with
    | false =>
      rw [hcursor, quotedString_error p t hx, quotedString_error _ _ hx]
      exact .error
    | true =>
      have hr : x ≠ '\r' := by
        rintro rfl
        cases hx
      have hclose' := Text.closingQuote_withReturns hn hr x t
      cases hclose : closingQuote x x t with
      | none =>
        rw [hclose] at hclose'
        obtain ⟨e, c', he⟩ := quotedString_failed p hx (.inl hclose)
        obtain ⟨e', c'', he'⟩ :=
          quotedString_failed (withReturns p.reverse).reverse hx (.inl hclose')
        rw [hcursor, he, he']
        exact .error
      | some found =>
        obtain ⟨body, rest⟩ := found
        have ht := closingQuote_eq hclose
        rw [hclose] at hclose'
        have hbody : '\r' ∉ body ++ [x] := by
          simp only [Cursor.text, ht] at hcr
          simp only [List.mem_append, List.mem_cons, not_or] at hcr ⊢
          exact ⟨hcr.2.2.1, hcr.2.1, by simp⟩
        have hvalue' := Text.literal?_withReturns hn hr hbody
        rw [Text.withReturns_append, Text.withReturns_cons hn, Text.withReturns_nil] at hvalue'
        cases hvalue : Text.literal? x (body ++ [x]) with
        | none =>
          rw [hvalue] at hvalue'
          obtain ⟨e, c', he⟩ := quotedString_failed p hx (.inr ⟨body, rest, hclose, hvalue⟩)
          obtain ⟨e', c'', he'⟩ := quotedString_failed (withReturns p.reverse).reverse hx
            (.inr ⟨_, _, hclose', hvalue'⟩)
          rw [hcursor, he, he']
          exact .error
        | some value =>
          rw [hvalue] at hvalue'
          have hquoted : withReturns (x :: body ++ [x]) = x :: withReturns body ++ [x] := by
            simp [Text.withReturns_cons hn]
          rw [ht] at hclose
          rw [ht, Text.withReturns_append, Text.withReturns_cons hn] at hclose'
          have hreads := reads_quotedString hx hclose hvalue
          have hreads' := reads_quotedString hx hclose' hvalue'
          rw [← hquoted] at hreads'
          apply hreads.twin hreads' h₁ (by simp [ht])
          intro _ _
          rfl

end Reader

end Haml
