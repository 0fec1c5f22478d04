import Haml.Proofs.Reading.Attributes
import Haml.Proofs.Reading.Exact

/-!
What readers look at. A reader that has ended with a value ends with the same value if the text
before its start or the text far behind its end is another one. How far is given by a relation
between two continuations of the text: most readers look no further than the end of the line in
which they stop, and the reader of a line not even beyond the line break that it passes over.
-/
namespace Haml

namespace Reader

variable {α β σ : Type} {n : Nat} {u : Text}

/-- Two texts that are the same, or that are so at least up to a line break after the first `n`
characters. -/
def Agree (n : Nat) (r r' : Text) : Prop :=
  r = r' ∨ ∃ w s s', r = w ++ s ∧ r' = w ++ s' ∧ '\n' ∈ w.drop n

theorem Agree.symm {r r' : Text} (h : Agree n r r') : Agree n r' r := by
  obtain rfl | ⟨w, s, s', rfl, rfl, hw⟩ := h
  · exact .inl rfl
  · exact .inr ⟨w, s', s, rfl, rfl, hw⟩

theorem Agree.append {r r' : Text} (h : Agree n r r') (t : Text) : Agree n (t ++ r) (t ++ r') := by
  obtain rfl | ⟨w, s, s', rfl, rfl, hw⟩ := h
  · exact .inl rfl
  · refine .inr ⟨t ++ w, s, s', by simp, by simp, ?_⟩
    rw [List.drop_append]
    exact List.mem_append_right _ (List.drop_subset_drop_left _ (by omega) hw)

theorem Agree.weaken {r r' : Text} (h : Agree 1 r r') : Agree 0 r r' := by
  obtain rfl | ⟨w, s, s', rfl, rfl, hw⟩ := h
  · exact .inl rfl
  · exact .inr ⟨w, s, s', rfl, rfl, List.drop_subset _ _ hw⟩

theorem Agree.behind {r r' t : Text} (h : Agree 0 r r') (ht : t ≠ []) :
    Agree 1 (t ++ r) (t ++ r') := by
  obtain ⟨x, t, rfl⟩ := List.exists_cons_of_ne_nil ht
  obtain rfl | ⟨w, s, s', rfl, rfl, hw⟩ := h
  · exact .inl rfl
  · exact .inr ⟨x :: t ++ w, s, s', by simp, by simp, by simpa using .inr hw⟩

/-- Two texts that agree beyond their first character. -/
theorem Agree.tail {x : Char} {r r' : Text} (h : Agree 1 (x :: r) r') :
    ∃ s, r' = x :: s ∧ Agree 0 r s := by
  obtain rfl | ⟨w, s, s', hr, rfl, hw⟩ := h
  · exact ⟨r, rfl, .inl rfl⟩
  · cases w with
    | nil => simp at hw
    | cons y w =>
      obtain ⟨rfl, rfl⟩ : x = y ∧ r = w ++ s := by simpa using hr
      exact ⟨w ++ s', rfl, .inr ⟨w, s, s', rfl, rfl, by simpa using hw⟩⟩

theorem Agree.of_mem {t r r' : Text} (h : '\n' ∈ t) : Agree 0 (t ++ r) (t ++ r') :=
  .inr ⟨t, r, r', rfl, rfl, h⟩

theorem Agree.head? {r r' : Text} (h : Agree n r r') : r'.head? = r.head? := by
  obtain rfl | ⟨w, s, s', rfl, rfl, hw⟩ := h
  · rfl
  · cases w with
    | nil => simp at hw
    | cons x w => rfl

theorem Agree.nil_iff {r r' : Text} (h : Agree n r r') : r' = [] ↔ r = [] := by
  have hhead := h.head?
  cases r <;> cases r' <;> simp_all

/-- The reader, where `u` is ahead, passes over a first part of `u` when it ends with a value. Its
value, that part and the rest satisfy `J`, and with any rest that stands in the relation `A` to this
one the reader does the same. -/
def Local (A : α → Text → Text → Prop) (J : α → Text → Text → Prop) (r : Reader α) (u : Text) :
    Prop :=
  ∀ p a c', r ⟨p, u, 0, 0⟩ = .ok a c' → ∃ t rest, u = t ++ rest ∧
    c' = ⟨t.reverse ++ p, rest, 0, 0⟩ ∧ J a t rest ∧ ∀ rest', A a rest rest' → Reads r t a rest'

/-- The same relation for all values. -/
abbrev Near (n : Nat) : α → Text → Text → Prop := fun _ => Agree n

/-- For all values, that two texts start with the same character. -/
abbrev Ahead : α → Text → Text → Prop := fun _ r r' => r'.head? = r.head?

theorem head?_append_congr {r r' : Text} (h : r'.head? = r.head?) (t : Text) :
    (t ++ r').head? = (t ++ r).head? := by
  cases t with
  | nil => exact h
  | cons x t => rfl

variable {A : α → Text → Text → Prop} {A' : β → Text → Text → Prop}
  {J : α → Text → Text → Prop} {L : β → Text → Text → Prop}

theorem Local.mono {J' : α → Text → Text → Prop} {r : Reader α} (h : Local A J r u)
    (hJ : ∀ a t rest, u = t ++ rest → J a t rest → J' a t rest) : Local A J' r u := by
  intro p a c' hr
  obtain ⟨t, rest, hu, hc, hj, hreads⟩ := h p a c' hr
  exact ⟨t, rest, hu, hc, hJ a t rest hu hj, hreads⟩

theorem Local.narrow {B : α → Text → Text → Prop} {r : Reader α} (h : Local A J r u)
    (hA : ∀ a r r', B a r r' → A a r r') : Local B J r u := by
  intro p a c' hr
  obtain ⟨t, rest, hu, hc, hj, hreads⟩ := h p a c' hr
  exact ⟨t, rest, hu, hc, hj, fun rest' h' => hreads rest' (hA _ _ _ h')⟩

/-- Two actions that end with a value: what the first one has done, and the second one after it. -/
theorem Local.exists_of_bind {x : Reader α} {f : α → Reader β} (hx : Local A J x u) {p : Text}
    {b : β} {c' : Cursor} (h : (x >>= f) ⟨p, u, 0, 0⟩ = .ok b c') :
    ∃ a t rest, u = t ++ rest ∧ J a t rest ∧ (∀ rest', A a rest rest' → Reads x t a rest') ∧
      f a ⟨t.reverse ++ p, rest, 0, 0⟩ = .ok b c' := by
  obtain ⟨a, c₁, hxr, hfr⟩ := exists_of_bind_eq_ok h
  obtain ⟨t, rest, hu, rfl, hj, hreads⟩ := hx p a c₁ hxr
  exact ⟨a, t, rest, hu, hj, hreads, hfr⟩

/-- One action after another; what the second one passes over is seen by the first one. -/
theorem Local.carry {x : Reader α} {f : α → Reader β} (hx : Local A J x u)
    (hf : ∀ a t rest, u = t ++ rest → J a t rest → Local A' (fun b t' rest' =>
      L b (t ++ t') rest' ∧ ∀ s, A' b rest' s → A a (t' ++ rest') (t' ++ s)) (f a) rest) :
    Local A' L (x >>= f) u := by
  intro p b c' hr
  obtain ⟨a, t, rest, rfl, hj, hreads, hfr⟩ := hx.exists_of_bind hr
  obtain ⟨t', rest', rfl, rfl, ⟨hl, hcarry⟩, hreads'⟩ := hf a t rest rfl hj _ b c' hfr
  refine ⟨t ++ t', rest', by simp, by simp, hl, fun s hs => ?_⟩
  exact (hreads _ (hcarry s hs)).bind (hreads' s hs)

/-- One action after another, if a relation is kept by a text in front. -/
theorem Local.bind_of {R : Text → Text → Prop} (hR : ∀ t r r', R r r' → R (t ++ r) (t ++ r'))
    {x : Reader α} {f : α → Reader β} (hx : Local (fun _ => R) J x u)
    (hf : ∀ a t rest, u = t ++ rest → J a t rest →
      Local (fun _ => R) (fun b t' => L b (t ++ t')) (f a) rest) :
    Local (fun _ => R) L (x >>= f) u :=
  hx.carry fun a t rest hu hj =>
    (hf a t rest hu hj).mono fun _ t' _ _ hl => ⟨hl, fun _ h => hR t' _ _ h⟩

theorem Local.bind {x : Reader α} {f : α → Reader β} (hx : Local (Near n) J x u)
    (hf : ∀ a t rest, u = t ++ rest → J a t rest →
      Local (Near n) (fun b t' => L b (t ++ t')) (f a) rest) :
    Local (Near n) L (x >>= f) u :=
  hx.bind_of (R := Agree n) (fun t _ _ h => h.append t) hf

theorem Local.ahead {x : Reader α} {f : α → Reader β} (hx : Local Ahead J x u)
    (hf : ∀ a t rest, u = t ++ rest → J a t rest →
      Local Ahead (fun b t' => L b (t ++ t')) (f a) rest) :
    Local Ahead L (x >>= f) u :=
  hx.bind_of (fun t _ _ h => head?_append_congr h t) hf

/-- An action before one that passes over something: what it looks at is passed over as well. -/
theorem Local.before {x : Reader α} {f : α → Reader β} (hx : Local Ahead J x u)
    (hf : ∀ a t rest, u = t ++ rest → J a t rest →
      Local A' (fun b t' rest' => L b (t ++ t') rest' ∧ t' ≠ []) (f a) rest) :
    Local A' L (x >>= f) u := by
  apply hx.carry
  intro a t rest hu hj
  apply (hf a t rest hu hj).mono
  intro b t' rest' _ hl
  obtain ⟨y, v, rfl⟩ := List.exists_cons_of_ne_nil hl.2
  exact ⟨hl.1, fun _ _ => rfl⟩

theorem Local.near {r : Reader α} (h : Local Ahead J r u) : Local (Near n) J r u :=
  h.narrow fun _ _ _ h => h.head?

/-- An action before one that looks at least as far as the end of the line. -/
theorem Local.into {x : Reader α} {f : α → Reader β} (hx : Local (Near 0) J x u)
    (hA : ∀ b r r', A' b r r' → Agree 0 r r')
    (hf : ∀ a t rest, u = t ++ rest → J a t rest → Local A' (fun b t' => L b (t ++ t')) (f a) rest) :
    Local A' L (x >>= f) u :=
  hx.carry fun a t rest hu hj =>
    (hf a t rest hu hj).mono fun b t' _ _ hl => ⟨hl, fun _ h => (hA b _ _ h).append t'⟩

theorem local_pure {a : α} (hJ : J a [] u) : Local A J (pure a) u := by
  intro p b c' hr
  cases hr
  exact ⟨[], u, rfl, rfl, hJ, fun rest' _ => reads_pure a rest'⟩

theorem local_throw {e : Failure} : Local A J (throw e : Reader α) u := by
  intro p b c' hr
  cases hr

theorem local_reject {fault : Fault} : Local A J (reject fault : Reader α) u := by
  intro p b c' hr
  cases hr

theorem Local.ite {q : Prop} [Decidable q] {x y : Reader α} (hx : q → Local A J x u)
    (hy : ¬ q → Local A J y u) : Local A J (if q then x else y) u := by
  by_cases h : q
  · rw [if_pos h]
    exact hx h
  · rw [if_neg h]
    exact hy h

/-- A reader whose outcome is known. -/
theorem Reads.local {r : Reader α} {a : α} {t rest : Text} (hr : Reads r t a rest)
    (hJ : J a t rest) (h : ∀ rest', A a rest rest' → Reads r t a rest') :
    Local A J r (t ++ rest) := by
  intro p b c' heq
  rw [hr p] at heq
  cases heq
  exact ⟨t, rest, rfl, rfl, hJ, h⟩

/-- A turn that goes on has passed over something, and `J` tells what one that ends the loop did. -/
def Step (J : α → Text → Text → Prop) : σ ⊕ α → Text → Text → Prop
  | .inl _, t, _ => t ≠ []
  | .inr a, t, rest => J a t rest

/-- A loop each of whose turns passes over something. What the later turns pass over, which is told
by `J`, is seen by the turns before. -/
theorem local_loop {turn : σ → Reader (σ ⊕ α)} {A : σ ⊕ α → Text → Text → Prop}
    (hturn : ∀ s u, Local A (Step J) (turn s) u)
    (hcarry : ∀ s a t rest rest', J a t rest → A (.inr a) rest rest' →
      A (.inl s) (t ++ rest) (t ++ rest'))
    (hJ : ∀ a t t' rest, J a t' rest → J a (t ++ t') rest) (s : σ) :
    Local (fun a => A (.inr a)) J (do iterate turn (← allowance) s) u := by
  have hloop : ∀ (steps u : Text) (s : σ) (p : Text) (a : α) (c' : Cursor),
      iterate turn steps s ⟨p, u, 0, 0⟩ = .ok a c' → ∃ t rest, u = t ++ rest ∧
        c' = ⟨t.reverse ++ p, rest, 0, 0⟩ ∧ J a t rest ∧
        ∀ rest' steps' : Text, A (.inr a) rest rest' → t.length < steps'.length →
          Reads (iterate turn steps' s) t a rest' := by
    intro steps
    induction steps with
    | nil =>
      intro u s p a c' hr
      cases hr
    | cons x steps ih =>
      intro u s p a c' hr
      obtain ⟨r, c₁, hturned, hr⟩ := exists_of_bind_eq_ok hr
      obtain ⟨t, rest, rfl, rfl, hj, hreads⟩ := hturn s u p r c₁ hturned
      cases r with
      | inl s' =>
        obtain ⟨t', rest', rfl, rfl, hj', hreads'⟩ := ih rest s' _ a c' hr
        refine ⟨t ++ t', rest', by simp, by simp, hJ a t t' rest' hj', fun v steps' hv hlen => ?_⟩
        obtain ⟨y, steps', rfl⟩ := List.exists_cons_of_length_pos (Nat.zero_lt_of_lt hlen)
        have hpos := List.length_pos_iff.mpr hj
        refine (hreads _ (hcarry s' a t' rest' v hj' hv)).iterate y (hreads' v steps' hv ?_)
        simp only [List.length_append, List.length_cons] at hlen
        omega
      | inr a' =>
        cases hr
        refine ⟨t, rest, rfl, rfl, hj, fun v steps' hv hlen => ?_⟩
        obtain ⟨y, steps', rfl⟩ := List.exists_cons_of_length_pos (Nat.zero_lt_of_lt hlen)
        exact (hreads v hv).iterate_last y
  intro p a c' hr
  obtain ⟨steps, c₁, hsteps, hr⟩ := exists_of_bind_eq_ok hr
  cases hsteps
  obtain ⟨t, rest, rfl, rfl, hj, hreads⟩ := hloop _ u s p a c' hr
  refine ⟨t, rest, rfl, rfl, hj, fun rest' h => ?_⟩
  exact (reads_allowance _).look (hreads rest' _ h (Nat.lt_succ_of_le (by simp)))

/-! ## The lexical readers -/

theorem ahead_peek : Local Ahead (fun x t rest => t = [] ∧ rest.head? = some x) peek u := by
  cases u with
  | nil =>
    intro p a c' hr
    cases hr
  | cons x u => exact (reads_peek rfl).local ⟨rfl, rfl⟩ fun _ h => reads_peek h

theorem local_peek : Local (Near n) (fun x t rest => t = [] ∧ rest.head? = some x) peek u :=
  ahead_peek.near

theorem local_peek? : Local (Near n) (fun o t rest => t = [] ∧ o = rest.head?) peek? u := by
  refine (reads_peek? u).local ⟨rfl, rfl⟩ fun rest' h => ?_
  rw [← h.head?]
  exact reads_peek? rest'

theorem ahead_atEnd :
    Local Ahead (fun b t rest => t = [] ∧ (b = true ↔ rest = [])) atEnd u := by
  cases u with
  | nil =>
    have hend : Reads atEnd [] true [] := fun _ => rfl
    apply hend.local ⟨rfl, by simp⟩
    intro rest' h
    rwa [List.head?_eq_none_iff.mp h]
  | cons x u =>
    have hend (rest' : Text) (h : rest'.head? = some x) : Reads atEnd [] false rest' :=
      reads_atEnd (ne_nil_of_head? h)
    exact (hend _ rfl).local ⟨rfl, by simp⟩ hend

theorem local_atEnd :
    Local (Near n) (fun b t rest => t = [] ∧ (b = true ↔ rest = [])) atEnd u :=
  ahead_atEnd.near

theorem local_skip {A : Unit → Text → Text → Prop} (hu : u ≠ []) :
    Local A (fun _ t _ => t ≠ []) skip u := by
  obtain ⟨x, u, rfl⟩ := List.exists_cons_of_ne_nil hu
  exact (reads_skip x u).local (by simp) fun rest' _ => reads_skip x rest'

theorem head?_dropWhile {q : Char → Bool} {x : Char} (h : (u.dropWhile q).head? = some x) :
    q x = false := by
  induction u with
  | nil => cases h
  | cons y u ih =>
    by_cases hy : q y = true
    · rw [List.dropWhile_cons_of_pos hy] at h
      exact ih h
    · rw [List.dropWhile_cons_of_neg hy] at h
      cases h
      simpa using hy

/-- A run of characters is read up to any character that does not belong to it. -/
theorem local_run (q : Char → Bool) :
    Local (fun _ _ r' => ∀ x, r'.head? = some x → q x = false)
      (fun w t rest => w = t ∧ t = u.takeWhile q ∧ rest = u.dropWhile q) (takeWhile q) u := by
  have hreads (rest' : Text) (h : ∀ x, rest'.head? = some x → q x = false) :
      Reads (takeWhile q) (u.takeWhile q) (u.takeWhile q) rest' :=
    reads_takeWhile (fun x hx => List.all_eq_true.mp List.all_takeWhile x hx) h
  have hrun := (hreads _ fun x hx => head?_dropWhile hx).local
    (A := fun _ _ r' => ∀ x, r'.head? = some x → q x = false)
    (J := fun w t rest => w = t ∧ t = u.takeWhile q ∧ rest = u.dropWhile q) ⟨rfl, rfl, rfl⟩ hreads
  rwa [List.takeWhile_append_dropWhile] at hrun

theorem ahead_takeWhile (q : Char → Bool) :
    Local Ahead (fun w t _ => w = t ∧ t = u.takeWhile q) (takeWhile q) u := by
  intro p a c' hr
  obtain ⟨t, rest, hu, hc, ⟨hw, ht, hrest⟩, hreads⟩ := local_run q p a c' hr
  refine ⟨t, rest, hu, hc, ⟨hw, ht⟩, fun rest' h => hreads rest' fun x hx => ?_⟩
  rw [h, hrest] at hx
  exact head?_dropWhile hx

theorem local_takeWhile (q : Char → Bool) :
    Local (Near n) (fun w t _ => w = t ∧ t = u.takeWhile q) (takeWhile q) u :=
  (ahead_takeWhile q).near

theorem ahead_indentation : Local Ahead (fun w t _ => w = t) indentation u :=
  (ahead_takeWhile _).mono fun _ _ _ _ h => h.1

theorem local_indentation : Local (Near n) (fun w t _ => w = t) indentation u :=
  ahead_indentation.near

theorem local_gap : Local (Near n) (fun w t _ => w = t) gap u :=
  (local_takeWhile _).mono fun _ _ _ _ h => h.1

theorem local_accept (x : Char) :
    Local (Near n) (fun b t rest => (b = true → t = [x]) ∧ (b = false → t = [] ∧
      rest.head? ≠ some x)) (accept x) u := by
  refine local_peek?.bind fun o t rest hu ho => ?_
  obtain ⟨rfl, rfl⟩ := ho
  refine .ite (fun hx => ?_) fun hx => local_pure ⟨by simp, fun _ => ⟨rfl, hx⟩⟩
  obtain ⟨v, rfl⟩ := List.head?_eq_some_iff.mp hx
  have hskip : Local (Near n) (fun _ t _ => t = [x]) skip (x :: v) :=
    (reads_skip x v).local rfl fun rest' _ => reads_skip x rest'
  refine hskip.bind fun _ t rest _ ht => local_pure ⟨fun _ => ?_, by simp⟩
  simp [ht]

theorem ahead_expectInput :
    Local Ahead (fun _ t rest => t = [] ∧ rest ≠ []) expectInput u := by
  refine ahead_atEnd.ahead fun b t rest hu hb => ?_
  obtain ⟨rfl, hb⟩ := hb
  exact .ite (fun _ => local_reject) fun h => local_pure ⟨rfl, fun he => h (hb.mpr he)⟩

theorem local_expectInput :
    Local (Near n) (fun _ t rest => t = [] ∧ rest ≠ []) expectInput u :=
  ahead_expectInput.near

theorem local_unexpected : Local (Near n) J (unexpected : Reader α) u :=
  local_peek.bind fun _ _ _ _ _ => local_reject

theorem local_symbol {A : Text → Text → Text → Prop} (symbol : Text) :
    Local A (fun _ t _ => t = symbol) (Reader.symbol [symbol]) u := by
  by_cases h : u.take symbol.length = symbol
  · have hu := List.take_append_drop symbol.length u
    rw [h] at hu
    rw [← hu]
    exact (reads_symbol _ _).local rfl fun rest' _ => reads_symbol symbol rest'
  · intro p a c' hr
    simp [Reader.symbol, Cursor.piece, h, reject] at hr

/-- A word is read up to any character that does not belong to it. -/
theorem local_wordRun (extra : Char → Bool) :
    Local (fun _ _ r' => ∀ x, r'.head? = some x → (Text.isWord x || extra x) = false)
      (fun w t rest => t ≠ [] ∧ w = t ∧ (∀ x ∈ t, (Text.isWord x || extra x) = true) ∧
        ∀ x, rest.head? = some x → (Text.isWord x || extra x) = false) (word extra) u := by
  refine ahead_expectInput.before fun _ t rest hu he => ?_
  obtain ⟨rfl, -⟩ := he
  refine ahead_peek.before fun x t rest' hu' hx => ?_
  obtain ⟨rfl, hx⟩ := hx
  refine .ite (fun hword => ?_) fun _ => local_reject
  refine (local_run _).mono fun w t' rest'' _ hw => ?_
  obtain ⟨v, rfl⟩ := List.head?_eq_some_iff.mp hx
  have hne : t' ≠ [] := by simp [hw.2.1, show _ = true from hword]
  have hall : ∀ x ∈ t', (Text.isWord x || extra x) = true := by
    rw [hw.2.1]
    exact fun x hx => List.all_eq_true.mp List.all_takeWhile x hx
  have hend : ∀ x, rest''.head? = some x → (Text.isWord x || extra x) = false := by
    rw [hw.2.2]
    exact fun x hx => head?_dropWhile hx
  exact ⟨⟨⟨hne, hw.1, hall, hend⟩, hne⟩, hne⟩

theorem ahead_word (extra : Char → Bool) :
    Local Ahead (fun _ t _ => t ≠ []) (word extra) u := by
  intro p a c' hr
  obtain ⟨t, rest, hu, hc, ⟨hne, -, -, hend⟩, hreads⟩ := local_wordRun extra p a c' hr
  refine ⟨t, rest, hu, hc, hne, fun rest' h => hreads rest' fun x hx => ?_⟩
  exact hend x (h ▸ hx)

theorem local_word (extra : Char → Bool) :
    Local (Near n) (fun _ t _ => t ≠ []) (word extra) u :=
  (ahead_word extra).near

theorem closingQuote_rest {q before : Char} {t body rest : Text}
    (h : closingQuote q before t = some (body, rest)) (rest' : Text) :
    closingQuote q before (body ++ q :: rest') = some (body, rest') := by
  induction t generalizing before body with
  | nil => cases h
  | cons x t ih =>
    simp only [closingQuote] at h
    split at h
    · next hx =>
      obtain ⟨rfl, rfl⟩ : [] = body ∧ t = rest := by simpa using h
      simp [closingQuote, hx.2]
    · next hx =>
      obtain ⟨⟨b, r⟩, hb, heq⟩ := Option.map_eq_some_iff.mp h
      obtain ⟨rfl, rfl⟩ : x :: b = body ∧ r = rest := by simpa using heq
      simp [closingQuote, hx, ih hb]

theorem local_quotedString {A : Text → Text → Text → Prop} :
    Local A (fun _ t _ => t ≠ []) quotedString u := by
  intro p a c' hr
  cases u with
  | nil => cases hr
  | cons q rest =>
    simp only [quotedString, Cursor.ahead, if_true] at hr
    split at hr
    · next hq =>
      split at hr
      · cases hr
      · next body rest' hclose =>
        have hspan : Cursor.span ⟨p, q :: rest, 0, 0⟩ (q :: body ++ [q]) = q :: (body ++ [q]) := by
          simp [Cursor.span]
        simp only [hspan] at hr
        split at hr
        · next value hvalue =>
          cases hr
          refine ⟨q :: body ++ [q], rest', ?_, ?_, by simp, fun s _ => ?_⟩
          · rw [closingQuote_eq hclose]
            simp
          · simp [Cursor.past]
          · exact reads_quotedString hq (closingQuote_rest hclose s) hvalue
        · cases hr
    · cases hr

/-- The margin of a line is seen in the line. -/
theorem margin?_agree {r r' : Text} {m : Option Nat} (h : margin? r = .ok m) (ha : Agree 0 r r') :
    margin? r' = .ok m := by
  obtain rfl | ⟨w, s, s', rfl, rfl, hw⟩ := ha
  · exact h
  · induction w generalizing m with
    | nil => simp at hw
    | cons x w ih =>
      simp only [List.cons_append, margin?] at h ⊢
      split
      · next hx => simpa [hx] using h
      · next hx =>
        rw [if_neg hx] at h
        split
        · next hb =>
          rw [if_pos hb] at h
          have hw' : '\n' ∈ w := by simpa [Ne.symm hx] using hw
          cases hm : margin? (w ++ s) with
          | error e =>
            rw [hm] at h
            cases h
          | ok k =>
            rw [hm] at h
            rw [ih hm (by simpa using hw')]
            exact h
        · next hb => simpa [hb] using h

theorem local_peekMargin :
    Local (Near 0) (fun m t rest => t = [] ∧ margin? rest = .ok m) peekMargin u := by
  have hreads : ∀ {r : Text} {m : Option Nat}, margin? r = .ok m → Reads peekMargin [] m r := by
    intro r m h p
    simp [peekMargin, Cursor.ahead, h]
  cases hm : margin? u with
  | error e =>
    intro p a c' hr
    simp [peekMargin, Cursor.ahead, hm] at hr
  | ok m => exact (hreads hm).local ⟨rfl, hm⟩ fun rest' h => hreads (margin?_agree hm h)

/-- Two continuations of a text after a line break are as good as each other. -/
def Loose (r r' : Text) : Prop := r ≠ [] ∨ r = r'

theorem Agree.loose {r r' : Text} (h : Agree 0 r r') : Loose r r' := by
  obtain rfl | ⟨w, s, s', rfl, rfl, hw⟩ := h
  · exact .inr rfl
  · refine .inl fun hnil => ?_
    simp [(List.append_eq_nil_iff.mp hnil).1] at hw

/-- What was passed over reaches to a line break, unless nothing is left. -/
def EndsLine (t rest : Text) : Prop := rest ≠ [] → '\n' ∈ t

theorem EndsLine.append {t rest : Text} (h : EndsLine t rest) (t' : Text) :
    EndsLine (t' ++ t) rest := fun hne => List.mem_append_right _ (h hne)

/-- What is passed over by a reader that ends with a line is seen by the ones before. -/
theorem EndsLine.agree {t rest rest' : Text} (h : EndsLine t rest) (hfree : Loose rest rest') :
    Agree 0 (t ++ rest) (t ++ rest') := by
  obtain hne | rfl := hfree
  · exact .of_mem (h hne)
  · exact .inl rfl

/-- An action before one that ends with a line. -/
theorem Local.toLine {x : Reader α} {f : α → Reader β} (hx : Local (Near 0) J x u)
    (hA : ∀ b r r', A' b r r' → Loose r r')
    (hf : ∀ a t rest, u = t ++ rest → J a t rest → Local A' (fun _ => EndsLine) (f a) rest) :
    Local A' (fun _ => EndsLine) (x >>= f) u :=
  hx.carry fun a t rest hu hj => (hf a t rest hu hj).mono fun b _ _ _ h =>
    ⟨h.append t, fun _ hs => h.agree (hA b _ _ hs)⟩

/-- A line is read without a look at what follows its line break. -/
theorem local_line :
    Local (fun _ => Loose) (fun _ t rest => EndsLine t rest ∧ (t = [] → u = [])) line u := by
  by_cases hu : '\n' ∈ u
  · obtain ⟨l, rest, rfl, hl⟩ := List.eq_append_cons_of_mem hu
    have hsplit : l ++ '\n' :: rest = (l ++ ['\n']) ++ rest := by simp
    rw [hsplit]
    refine (reads_line hl rest).local ⟨fun _ => by simp, by simp⟩ fun rest' _ => reads_line hl rest'
  · have hread : Reads line u u [] := by
      have htake : Reads (takeWhile (· != '\n')) u u [] := by
        refine reads_takeWhile (fun x hx => ?_) (by simp)
        simp only [bne_iff_ne, ne_eq]
        rintro rfl
        exact hu hx
      exact htake.last ((reads_accept_none (by simp)).look (reads_pure _ _))
    have hfree : ∀ rest', Loose [] rest' → Reads line u u rest' := by
      intro rest' h
      obtain h | rfl := h
      · exact absurd rfl h
      · exact hread
    have hlocal : Local (fun _ => Loose) (fun _ t rest => EndsLine t rest ∧ (t = [] → u = [])) line
        (u ++ []) := hread.local ⟨fun h => absurd rfl h, id⟩ hfree
    rwa [List.append_nil] at hlocal

/-- The turn of a loop that gathers has passed over what it has read. -/
def Item (K : Text → Text → Prop) : Option α → Text → Text → Prop
  | some _, t, _ => t ≠ []
  | none, t, rest => K t rest

theorem local_gather {turn : Reader (Option α)} {R : Text → Text → Prop}
    (hR : ∀ t r r', R r r' → R (t ++ r) (t ++ r')) {K : Text → Text → Prop} {acc : List α}
    (h : Local (fun _ => R) (Item K) turn u) :
    Local (fun _ => R) (Step fun _ => K) (gather turn acc) u := by
  refine h.bind_of hR fun o t rest _ ho => ?_
  cases o with
  | none => exact local_pure (by simpa [Step, Item] using ho)
  | some a => exact local_pure (by simpa [Step, Item] using ho)

/-- A loop that gathers. -/
theorem local_gathered {turn : Reader (Option α)} {R : Text → Text → Prop}
    (hR : ∀ t r r', R r r' → R (t ++ r) (t ++ r')) {K : Text → Prop}
    (h : ∀ u, Local (fun _ => R) (Item fun _ rest => K rest) turn u) :
    Local (fun _ => R) (fun _ _ rest => K rest) (do iterate (gather turn) (← allowance) []) u :=
  local_loop (A := fun _ => R) (fun _ u => local_gather hR (h u)) (fun _ _ t _ _ _ h => hR t _ _ h)
    (fun _ _ _ _ h => h) []

end Reader

end Haml
