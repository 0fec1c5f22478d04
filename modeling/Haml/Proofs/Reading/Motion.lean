import Haml.Reader

/-!
How readers move. A position `Moves` to another by passing over characters of the text, so the text
stays what it is and the position goes to the right. `Alike` says of two outcomes that they are the
same one, that it is reached by such a movement from a given position, and what holds of its value
or of its failure. Readers that compile block values are compared in two forms this way, one for
each of two compilers; for all others both outcomes are literally the same.
-/
namespace Haml

namespace Cursor

/-- The position lies in the text and not beyond one of its ends. -/
def Within (c : Cursor) : Prop := c.overrun = 0 ∧ c.underrun = 0

/-- A line end was passed over last, or there is nothing left to be read. -/
def LineEnd (c : Cursor) : Prop := c.rest = [] ∨ c.passed.head? = some '\n'

/-- The position `c'` is reached from `c` by passing over characters. -/
def Moves (c c' : Cursor) : Prop :=
  c'.Within ∧ ∃ taken, c.rest = taken ++ c'.rest ∧ c'.passed = taken.reverse ++ c.passed

theorem within_ofText (t : Text) : (ofText t).Within := ⟨rfl, rfl⟩

theorem Moves.refl {c : Cursor} (h : c.Within) : c.Moves c := ⟨h, [], rfl, rfl⟩

theorem Moves.trans {c₀ c₁ c₂ : Cursor} (h : c₀.Moves c₁) (h' : c₁.Moves c₂) : c₀.Moves c₂ := by
  obtain ⟨_, t, hr, hp⟩ := h
  obtain ⟨hw, t', hr', hp'⟩ := h'
  refine ⟨hw, t ++ t', ?_, ?_⟩
  · rw [hr, hr', List.append_assoc]
  · rw [hp', hp, List.reverse_append, List.append_assoc]

/-- A movement does not change the text. -/
theorem Moves.text_eq {c c' : Cursor} (h : c.Moves c') : c'.text = c.text := by
  obtain ⟨_, t, hr, hp⟩ := h
  simp only [text, hr, hp, List.reverse_append, List.reverse_reverse, List.append_assoc]

theorem Moves.length_le {c c' : Cursor} (h : c.Moves c') : c'.rest.length ≤ c.rest.length := by
  obtain ⟨_, t, hr, _⟩ := h
  rw [hr, List.length_append]
  omega

/-- What is passed over is added to what lies before the position. -/
theorem Moves.length_passed {c c' : Cursor} (h : c.Moves c') :
    c'.passed.length + c'.rest.length = c.passed.length + c.rest.length := by
  have := congrArg List.length h.text_eq
  simpa [text] using this

/-- Of two positions that are reached from one, the second has passed over what it has less ahead. -/
theorem Moves.passed_eq {c c₁ c₂ : Cursor} {w : Text} (h₁ : c.Moves c₁) (h₂ : c.Moves c₂)
    (h : c₁.rest = w ++ c₂.rest) : c₂.passed = w.reverse ++ c₁.passed := by
  obtain ⟨_, t₁, hr₁, hp₁⟩ := h₁
  obtain ⟨_, t₂, hr₂, hp₂⟩ := h₂
  have ht : t₂ = t₁ ++ w := by
    rw [hr₁, h, ← List.append_assoc] at hr₂
    exact (List.append_cancel_right hr₂).symm
  rw [hp₂, hp₁, ht, List.reverse_append, List.append_assoc]

/-- A movement goes to the right, and it is a real one if it leaves less to be read. -/
theorem Moves.position_lt {c c' : Cursor} (h : c.Moves c') (hc : c.Within)
    (hlt : c'.rest.length < c.rest.length) : c.position < c'.position := by
  have := h.length_passed
  simp only [position, hc.1, hc.2, h.1.1, h.1.2]
  omega

/-- Passing over the first of the characters that are left. -/
theorem moves_append {p taken rest : Text} :
    Moves ⟨p, taken ++ rest, 0, 0⟩ ⟨taken.reverse ++ p, rest, 0, 0⟩ :=
  ⟨⟨rfl, rfl⟩, taken, rfl, rfl⟩

/-- A step back after a real movement does not lead before its start. -/
theorem Moves.back {c c' : Cursor} (h : c.Moves c') (hlt : c'.rest.length < c.rest.length) :
    c.Moves c'.back := by
  obtain ⟨p, r, o, u⟩ := c'
  obtain ⟨⟨rfl, rfl⟩, t, hr, hp⟩ := h
  obtain ⟨t', x, rfl⟩ : ∃ t' x, t = t' ++ [x] := by
    rcases List.eq_nil_or_concat t with rfl | ⟨t', x, h⟩
    · simp only [hr, List.nil_append] at hlt
      omega
    · exact ⟨t', x, by simpa using h⟩
  obtain rfl : p = x :: (t'.reverse ++ c.passed) := by simpa using hp
  refine ⟨⟨rfl, rfl⟩, t', ?_, rfl⟩
  rw [hr, List.append_assoc]
  rfl

theorem exists_eq_of_within {c : Cursor} (h : c.Within) : ∃ p r, c = ⟨p, r, 0, 0⟩ := by
  obtain ⟨p, r, o, u⟩ := c
  obtain ⟨rfl, rfl⟩ : o = 0 ∧ u = 0 := h
  exact ⟨p, r, rfl⟩

end Cursor

namespace Reader

variable {α β σ : Type}

/-- The outcomes `r` and `r'` are the same. Its position is reached from `c`; a value satisfies `Q`
and a failure satisfies `E`. -/
def Alike (c : Cursor) (E : Failure → Prop) (Q : α → Cursor → Prop)
    (r r' : EStateM.Result Failure Cursor α) : Prop :=
  r' = r ∧ match r with
    | .ok a c' => c.Moves c' ∧ Q a c'
    | .error e c' => c.Moves c' ∧ E e

variable {c c₁ : Cursor} {E : Failure → Prop} {Q : α → Cursor → Prop} {R : β → Cursor → Prop}

theorem alike_ok {a : α} (h : c.Moves c₁) (hq : Q a c₁) : Alike c E Q (.ok a c₁) (.ok a c₁) :=
  ⟨rfl, h, hq⟩

theorem alike_error {e : Failure} (h : c.Moves c₁) (he : E e) :
    Alike c E Q (.error e c₁) (.error e c₁) :=
  ⟨rfl, h, he⟩

theorem alike_pure {a : α} (h : c.Moves c₁) (hq : Q a c₁) :
    Alike c E Q ((pure a : Reader α) c₁) ((pure a : Reader α) c₁) :=
  alike_ok h hq

theorem alike_throw {e : Failure} (h : c.Moves c₁) (he : E e) :
    Alike c E Q ((throw e : Reader α) c₁) ((throw e : Reader α) c₁) :=
  alike_error h he

/-- One action after another. -/
theorem Alike.bind {x x' : Reader α} {f f' : α → Reader β}
    (hx : Alike c E Q (x c₁) (x' c₁))
    (hf : ∀ a c₂, c.Moves c₂ → Q a c₂ → Alike c E R (f a c₂) (f' a c₂)) :
    Alike c E R ((x >>= f) c₁) ((x' >>= f') c₁) := by
  obtain ⟨heq, hout⟩ := hx
  simp only [Bind.bind, EStateM.bind, heq]
  cases hr : x c₁ with
  | ok a c₂ =>
    rw [hr] at hout
    exact hf a c₂ hout.1 hout.2
  | error e c₂ =>
    rw [hr] at hout
    exact alike_error hout.1 hout.2

theorem Alike.ite {p : Prop} [Decidable p] {x x' y y' : Reader α}
    (ht : p → Alike c E Q (x c₁) (x' c₁)) (hf : ¬ p → Alike c E Q (y c₁) (y' c₁)) :
    Alike c E Q ((if p then x else y) c₁) ((if p then x' else y') c₁) := by
  by_cases h : p
  · rw [if_pos h, if_pos h]
    exact ht h
  · rw [if_neg h, if_neg h]
    exact hf h

theorem Alike.mono {Q' : α → Cursor → Prop} {r r' : EStateM.Result Failure Cursor α}
    (h : Alike c E Q r r') (hq : ∀ a c', c.Moves c' → Q a c' → Q' a c') : Alike c E Q' r r' := by
  obtain ⟨rfl, hout⟩ := h
  refine ⟨rfl, ?_⟩
  cases r' with
  | ok a c' => exact ⟨hout.1, hq a c' hout.1 hout.2⟩
  | error e c' => exact hout

/-- What is reached from a position is reached from every position before it. -/
theorem Alike.since {r r' : EStateM.Result Failure Cursor α} (h : Alike c₁ E Q r r')
    (h₁ : c.Moves c₁) : Alike c E (fun a c' => c₁.Moves c' ∧ Q a c') r r' := by
  obtain ⟨rfl, hout⟩ := h
  refine ⟨rfl, ?_⟩
  cases r' with
  | ok a c' => exact ⟨h₁.trans hout.1, hout⟩
  | error e c' => exact ⟨h₁.trans hout.1, hout.2⟩

theorem Alike.ok {r r' : EStateM.Result Failure Cursor α} {a : α} (h : Alike c E Q r r')
    (hr : r = .ok a c₁) : c.Moves c₁ ∧ Q a c₁ := by
  obtain ⟨_, hout⟩ := h
  rw [hr] at hout
  exact hout

/-- An outcome that is no failure. -/
theorem Alike.exists_ok {r : EStateM.Result Failure Cursor α}
    (h : Alike c (fun _ => False) Q r r) : ∃ a c₁, r = .ok a c₁ ∧ c.Moves c₁ ∧ Q a c₁ := by
  obtain ⟨_, hout⟩ := h
  cases r with
  | ok a c₁ => exact ⟨a, c₁, rfl, hout⟩
  | error e c₁ => exact absurd hout.2 not_false

theorem bind_of_ok {x : Reader α} {f : α → Reader β} {a : α} (h : x c = .ok a c₁) :
    (x >>= f) c = f a c₁ := by
  simp only [Bind.bind, EStateM.bind, h]

/-- Two actions that end with a value: the first one does, and the second one after it. -/
theorem exists_of_bind_eq_ok {x : Reader α} {f : α → Reader β} {b : β} {c' : Cursor}
    (h : (x >>= f) c = .ok b c') : ∃ a c₁, x c = .ok a c₁ ∧ f a c₁ = .ok b c' := by
  simp only [Bind.bind, EStateM.bind] at h
  cases hx : x c with
  | ok a c₁ =>
    rw [hx] at h
    exact ⟨a, c₁, rfl, h⟩
  | error e c₁ =>
    rw [hx] at h
    cases h

/-- Repeats a turn until it ends with a result; a turn that goes on ends with a new state. Every
turn takes one character of the allowance. -/
def iterate (turn : σ → Reader (σ ⊕ α)) : Text → σ → Reader α
  | [], _ => throw .stalled
  | _ :: steps, s => do
    match ← turn s with
    | .inl s' => iterate turn steps s'
    | .inr a => return a

/-- The states and the positions that a repeated turn comes by. -/
inductive Reached (turn : σ → Reader (σ ⊕ α)) (s : σ) (c : Cursor) : σ → Cursor → Prop
  | start : Reached turn s c s c
  | turn {s₁ s₂ : σ} {c₁ c₂ : Cursor} (h : Reached turn s c s₁ c₁)
      (hturn : turn s₁ c₁ = .ok (.inl s₂) c₂) : Reached turn s c s₂ c₂

theorem Reached.after {turn : σ → Reader (σ ⊕ α)} {s s₁ s₂ : σ} {c₂ : Cursor}
    (hturn : turn s c = .ok (.inl s₁) c₁) (h : Reached turn s₁ c₁ s₂ c₂) :
    Reached turn s c s₂ c₂ := by
  induction h with
  | start => exact .turn .start hturn
  | turn _ hlast ih => exact .turn ih hlast

/-- A repetition ends with a turn that gives the result, after turns that went on. -/
theorem exists_reached_of_iterate {turn : σ → Reader (σ ⊕ α)} {steps : Text} {s : σ} {a : α}
    {c' : Cursor} (h : iterate turn steps s c = .ok a c') :
    ∃ s₁ c₁, Reached turn s c s₁ c₁ ∧ turn s₁ c₁ = .ok (.inr a) c' := by
  induction steps generalizing s c with
  | nil => cases h
  | cons x steps ih =>
    obtain ⟨r, c₁, hturn, h⟩ := exists_of_bind_eq_ok h
    cases r with
    | inl s₁ =>
      obtain ⟨s₂, c₂, hreached, hend⟩ := ih h
      exact ⟨s₂, c₂, .after hturn hreached, hend⟩
    | inr a' =>
      cases h
      exact ⟨s, c, .start, hturn⟩

/-- A repetition that fails has used up its allowance, or a turn of it fails. -/
theorem exists_reached_of_iterate_error {turn : σ → Reader (σ ⊕ α)} {steps : Text} {s : σ}
    {e : Failure} {c' : Cursor} (h : iterate turn steps s c = .error e c') :
    e = .stalled ∨ ∃ s₁ c₁, Reached turn s c s₁ c₁ ∧ turn s₁ c₁ = .error e c' := by
  induction steps generalizing s c with
  | nil =>
    cases h
    exact .inl rfl
  | cons x steps ih =>
    cases hturn : turn s c with
    | error e' c₁ =>
      simp only [iterate, Bind.bind, EStateM.bind, hturn] at h
      cases h
      exact .inr ⟨s, c, .start, hturn⟩
    | ok r c₁ =>
      rw [iterate, bind_of_ok hturn] at h
      cases r with
      | inl s₁ =>
        obtain hstalled | ⟨s₂, c₂, hreached, hfail⟩ := ih h
        · exact .inl hstalled
        · exact .inr ⟨s₂, c₂, .after hturn hreached, hfail⟩
      | inr a => cases h

/-- A turn that goes on has passed over at least one character. -/
def Advances (turn : σ → Reader (σ ⊕ α)) : Prop :=
  ∀ s c s' c', c.Within → turn s c = .ok (.inl s') c' →
    c.Moves c' ∧ c'.rest.length < c.rest.length

theorem Reached.moves {turn : σ → Reader (σ ⊕ α)} {s s₁ : σ} (hturn : Advances turn)
    (h : Reached turn s c s₁ c₁) (hc : c.Within) : c.Moves c₁ := by
  induction h with
  | start => exact .refl hc
  | turn _ hlast ih => exact ih.trans (hturn _ _ _ _ ih.1 hlast).1

/-- A repetition goes on from every state that it comes by, with enough left of its allowance. -/
theorem Reached.iterate_eq {turn : σ → Reader (σ ⊕ α)} {steps : Text} {s s₁ : σ}
    (hturn : Advances turn) (h : Reached turn s c s₁ c₁) (hc : c.Within)
    (hsteps : c.rest.length < steps.length) :
    ∃ left, c₁.rest.length < left.length ∧ iterate turn steps s c = iterate turn left s₁ c₁ := by
  induction h with
  | start => exact ⟨steps, hsteps, rfl⟩
  | turn hreached hlast ih =>
    obtain ⟨left, hleft, heq⟩ := ih
    have hlt := (hturn _ _ _ _ (hreached.moves hturn hc).1 hlast).2
    cases left with
    | nil => simp at hleft
    | cons x left =>
      simp only [List.length_cons] at hleft
      exact ⟨left, by omega, by rw [heq, iterate, bind_of_ok hlast]⟩

/-- A turn that fails ends the repetition. -/
theorem Reached.iterate_error {turn : σ → Reader (σ ⊕ α)} {steps : Text} {s s₁ : σ} {e : Failure}
    {c' : Cursor} (hturn : Advances turn) (h : Reached turn s c s₁ c₁) (hc : c.Within)
    (hsteps : c.rest.length < steps.length) (hfail : turn s₁ c₁ = .error e c') :
    iterate turn steps s c = .error e c' := by
  obtain ⟨left, hleft, heq⟩ := h.iterate_eq hturn hc hsteps
  cases left with
  | nil => simp at hleft
  | cons x left =>
    rw [heq]
    simp only [iterate, Bind.bind, EStateM.bind, hfail]

/-- What a turn ends with: a state that satisfies `I` and less to be read, or a result that
satisfies `Q`. -/
def Turned (I : σ → Cursor → Prop) (Q : α → Cursor → Prop) (c : Cursor) :
    σ ⊕ α → Cursor → Prop
  | .inl s, c' => c'.rest.length < c.rest.length ∧ I s c'
  | .inr a, c' => Q a c'

/-- A loop whose turns make progress comes to its end within an allowance that is longer than what
is left to be read. -/
theorem iterate_alike {turn turn' : σ → Reader (σ ⊕ α)} {I : σ → Cursor → Prop}
    (hturn : ∀ s c₁, c.Moves c₁ → I s c₁ →
      Alike c E (Turned I Q c₁) (turn s c₁) (turn' s c₁))
    (steps steps' : Text) (s : σ) (h₁ : c.Moves c₁) (hI : I s c₁)
    (hsteps : c₁.rest.length < steps.length) (hsteps' : c₁.rest.length < steps'.length) :
    Alike c E Q (iterate turn steps s c₁) (iterate turn' steps' s c₁) := by
  induction steps generalizing steps' s c₁ with
  | nil => simp at hsteps
  | cons x steps ih =>
    cases steps' with
    | nil => simp at hsteps'
    | cons x' steps' =>
      simp only [List.length_cons] at hsteps hsteps'
      refine (hturn s c₁ h₁ hI).bind fun r c₂ h₂ hr => ?_
      cases r with
      | inl s' => exact ih steps' s' h₂ hr.2 (by have := hr.1; omega) (by have := hr.1; omega)
      | inr a => exact alike_pure h₂ hr

theorem advances_of_alike {turn : σ → Reader (σ ⊕ α)} {I : σ → Cursor → σ → Cursor → Prop}
    {Q : σ → Cursor → α → Cursor → Prop}
    (hturn : ∀ s c, c.Within → Alike c (fun _ => True) (Turned (I s c) (Q s c) c)
      (turn s c) (turn s c)) : Advances turn := by
  intro s c s' c' hc heq
  obtain ⟨_, hout⟩ := hturn s c hc
  rw [heq] at hout
  exact ⟨hout.1, hout.2.1⟩

end Reader

end Haml
