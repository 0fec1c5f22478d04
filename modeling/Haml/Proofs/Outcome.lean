import Haml.Failure

/-!
Outcomes of what may fail. An outcome is settled if it is not the failure of a loop that has used up
its allowance; what is put together from settled parts is settled.
Two outcomes correspond if both are values that go together, or failures.
-/
namespace Haml

variable {α β : Type}

theorem bind_eq_ok {x : Except Failure α} {f : α → Except Failure β} {b : β}
    (h : (x >>= f) = .ok b) : ∃ a, x = .ok a ∧ f a = .ok b := by
  cases x with
  | error e => cases h
  | ok a => exact ⟨a, rfl, h⟩

theorem bind_eq_error {x : Except Failure α} {f : α → Except Failure β} {e : Failure}
    (h : (x >>= f) = .error e) : x = .error e ∨ ∃ a, x = .ok a ∧ f a = .error e := by
  cases x with
  | error e' =>
    cases h
    exact .inl rfl
  | ok a => exact .inr ⟨a, rfl, h⟩

/-- Every value of a list of outcomes is that of some member. -/
theorem exists_of_mapM_eq_ok {f : α → Except Failure β} {as : List α} {bs : List β}
    (h : as.mapM f = .ok bs) : ∀ b ∈ bs, ∃ a ∈ as, f a = .ok b := by
  induction as generalizing bs with
  | nil =>
    obtain rfl : [] = bs := Except.ok.inj h
    nofun
  | cons a as ih =>
    rw [List.mapM_cons] at h
    obtain ⟨b, hb, h⟩ := bind_eq_ok h
    obtain ⟨bs', hbs, h⟩ := bind_eq_ok h
    obtain rfl : b :: bs' = bs := Except.ok.inj h
    intro b' hb'
    rcases List.mem_cons.mp hb' with rfl | hb'
    · exact ⟨a, by simp, hb⟩
    · obtain ⟨a', ha', hfa⟩ := ih hbs b' hb'
      exact ⟨a', by simp [ha'], hfa⟩

/-- The failure of a list of outcomes is that of some member. -/
theorem exists_of_mapM_eq_error {f : α → Except Failure β} {as : List α} {e : Failure}
    (h : as.mapM f = .error e) : ∃ a ∈ as, f a = .error e := by
  induction as with
  | nil => cases h
  | cons a as ih =>
    rw [List.mapM_cons] at h
    rcases bind_eq_error h with ha | ⟨b, _, h⟩
    · exact ⟨a, by simp, ha⟩
    · rcases bind_eq_error h with has | ⟨bs, _, h⟩
      · obtain ⟨a', ha', hfa⟩ := ih has
        exact ⟨a', by simp [ha'], hfa⟩
      · cases h

/-- The outcome is a value or a failure with a cause in the template. -/
def Settled (x : Except Failure α) : Prop := x ≠ .error .stalled

theorem settled_ok (a : α) : Settled (.ok a) := nofun

theorem settled_error {e : Failure} (h : e ≠ .stalled) : Settled (.error e : Except Failure α) :=
  fun he => h (Except.error.inj he)

theorem Settled.ne_stalled {x : Except Failure α} (h : Settled x) {e : Failure}
    (he : x = .error e) : e ≠ .stalled := by
  rintro rfl
  exact h he

theorem Settled.bind {x : Except Failure α} {f : α → Except Failure β} (hx : Settled x)
    (hf : ∀ a, x = .ok a → Settled (f a)) : Settled (x >>= f) := by
  cases x with
  | error e => exact settled_error (hx.ne_stalled rfl)
  | ok a => exact hf a rfl

theorem Settled.map {x : Except Failure α} (hx : Settled x) (f : α → β) : Settled (x.map f) := by
  cases x with
  | error e => exact settled_error (hx.ne_stalled rfl)
  | ok a => exact settled_ok (f a)

theorem settled_ite {q : Prop} [Decidable q] {x y : Except Failure α} (hx : Settled x)
    (hy : Settled y) : Settled (if q then x else y) := by
  split
  · exact hx
  · exact hy

theorem settled_mapM {f : α → Except Failure β} (hf : ∀ a, Settled (f a)) (as : List α) :
    Settled (as.mapM f) := by
  induction as with
  | nil => exact settled_ok []
  | cons a as ih =>
    rw [List.mapM_cons]
    exact (hf a).bind fun b _ => ih.bind fun bs _ => settled_ok (b :: bs)

/-- Two outcomes that correspond: both are values, and these satisfy `R`, or both are failures, or
the second is a failure that satisfies `S`. -/
inductive Corresponds (S : Failure → Prop) (R : α → β → Prop) :
    Except Failure α → Except Failure β → Prop
  | ok {a : α} {b : β} (h : R a b) : Corresponds S R (.ok a) (.ok b)
  | error {e e' : Failure} : Corresponds S R (.error e) (.error e')
  | refused {x : Except Failure α} {e : Failure} (h : S e) : Corresponds S R x (.error e)

theorem Corresponds.refl {S : Failure → Prop} {R : α → α → Prop} (h : ∀ a, R a a)
    (x : Except Failure α) : Corresponds S R x x := by
  cases x with
  | ok a => exact .ok (h a)
  | error e => exact .error

theorem Corresponds.bind {γ δ : Type} {S : Failure → Prop} {R : α → β → Prop} {R' : γ → δ → Prop}
    {x : Except Failure α} {y : Except Failure β} {f : α → Except Failure γ}
    {g : β → Except Failure δ} (h : Corresponds S R x y)
    (hf : ∀ a b, R a b → Corresponds S R' (f a) (g b)) : Corresponds S R' (x >>= f) (y >>= g) := by
  cases h with
  | ok h => exact hf _ _ h
  | error => exact .error
  | refused h => exact .refused h

end Haml
