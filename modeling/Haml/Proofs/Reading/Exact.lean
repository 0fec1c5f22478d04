import Haml.Proofs.Reading.Lexical
import Haml.Proofs.Reading.Turns

/-!
Exact readings. `Reads r t a rest` says that the reader `r`, where `t` is ahead and `rest` follows
it, passes over just `t` and ends with `a`. Readings are put together piece by piece along the text.
-/
namespace Haml.Reader

variable {α β σ : Type}

/-- The reader reads `t` to the value `a` where `rest` follows. -/
def Reads (r : Reader α) (t : Text) (a : α) (rest : Text) : Prop :=
  ∀ passed, r ⟨passed, t ++ rest, 0, 0⟩ = .ok a ⟨t.reverse ++ passed, rest, 0, 0⟩

variable {t t' rest : Text} {a : α} {b : β}

theorem ne_nil_of_head? {x : Char} (h : t.head? = some x) : t ≠ [] := by
  rintro rfl
  cases h

theorem reads_pure (a : α) (rest : Text) : Reads (pure a) [] a rest := fun _ => rfl

theorem Reads.bind {x : Reader α} {f : α → Reader β} (hx : Reads x t a (t' ++ rest))
    (hf : Reads (f a) t' b rest) : Reads (x >>= f) (t ++ t') b rest := by
  intro passed
  have hx' := hx passed
  have hf' := hf (t.reverse ++ passed)
  rw [← List.append_assoc] at hx'
  rw [bind_of_ok hx', hf', List.reverse_append, List.append_assoc]

/-- An action that only looks ahead, and another one after it. -/
theorem Reads.look {x : Reader α} {f : α → Reader β} (hx : Reads x [] a (t ++ rest))
    (hf : Reads (f a) t b rest) : Reads (x >>= f) t b rest :=
  hx.bind hf

/-- An action after which nothing is left to be passed over. -/
theorem Reads.last {x : Reader α} {f : α → Reader β} (hx : Reads x t a rest)
    (hf : Reads (f a) [] b rest) : Reads (x >>= f) t b rest := by
  have h : Reads (x >>= f) (t ++ []) b rest := hx.bind hf
  rwa [List.append_nil] at h

theorem Reads.ite_pos {q : Prop} [Decidable q] {x y : Reader α} (hq : q) (hx : Reads x t a rest) :
    Reads (if q then x else y) t a rest := by
  rwa [if_pos hq]

theorem Reads.ite_neg {q : Prop} [Decidable q] {x y : Reader α} (hq : ¬ q)
    (hy : Reads y t a rest) : Reads (if q then x else y) t a rest := by
  rwa [if_neg hq]

theorem Reads.map {x : Reader α} (f : α → β) (hx : Reads x t a rest) :
    Reads (do return f (← x)) t (f a) rest :=
  hx.last (reads_pure _ _)

/-! ## The lexical readers -/

theorem reads_peek {x : Char} (h : rest.head? = some x) : Reads peek [] x rest := by
  intro passed
  cases rest with
  | nil => cases h
  | cons y rest =>
    cases h
    rfl

theorem reads_peek? (rest : Text) : Reads peek? [] rest.head? rest := by
  intro passed
  cases rest with
  | nil => rfl
  | cons y rest => rfl

theorem reads_atEnd (h : rest ≠ []) : Reads atEnd [] false rest := by
  intro passed
  cases rest with
  | nil => exact absurd rfl h
  | cons y rest => rfl

theorem reads_skip (x : Char) (rest : Text) : Reads skip [x] () rest := fun _ => rfl

theorem reads_allowance (rest : Text) : Reads allowance [] (' ' :: rest) rest := fun _ => rfl

theorem reads_expectInput (h : rest ≠ []) : Reads expectInput [] () rest :=
  (reads_atEnd h).look (.ite_neg (by simp) (reads_pure _ _))

/-- A run of characters is read as a whole if no such character follows it. -/
theorem reads_takeWhile {q : Char → Bool} (ht : ∀ x ∈ t, q x = true)
    (hrest : ∀ x, rest.head? = some x → q x = false) : Reads (takeWhile q) t t rest := by
  intro passed
  have htake : (t ++ rest).takeWhile q = t := by
    rw [List.takeWhile_append_of_pos ht]
    cases rest with
    | nil => simp
    | cons y rest => simp [hrest y rfl]
  have hdrop : (t ++ rest).dropWhile q = rest := by
    rw [List.dropWhile_append_of_pos ht]
    cases rest with
    | nil => rfl
    | cons y rest => simp [hrest y rfl]
  unfold takeWhile
  simp only [Cursor.ahead, if_true]
  split
  · next hnil =>
    obtain ⟨rfl, rfl⟩ := List.append_eq_nil_iff.mp hnil
    rfl
  · rw [htake, hdrop]
    simp [Cursor.span, Cursor.past]

theorem reads_accept (x : Char) (rest : Text) : Reads (accept x) [x] true rest :=
  (reads_peek? _).look (.ite_pos rfl ((reads_skip x rest).last (reads_pure _ _)))

theorem reads_accept_none {x : Char} (h : rest.head? ≠ some x) : Reads (accept x) [] false rest :=
  (reads_peek? _).look (.ite_neg h (reads_pure _ _))

theorem reads_line (h : '\n' ∉ t) (rest : Text) : Reads line (t ++ ['\n']) t rest := by
  have htake : Reads (takeWhile (· != '\n')) t t ('\n' :: rest) := by
    refine reads_takeWhile (fun x hx => ?_) (fun x hx => ?_)
    · simp only [bne_iff_ne, ne_eq]
      rintro rfl
      exact h hx
    · cases hx
      rfl
  exact htake.bind ((reads_accept '\n' rest).last (reads_pure _ _))

/-- The last line of a text. -/
theorem reads_line_end (h : '\n' ∉ t) : Reads line t t [] := by
  have htake : Reads (takeWhile (· != '\n')) t t [] := by
    refine reads_takeWhile (fun x hx => ?_) nofun
    simp only [bne_iff_ne, ne_eq]
    rintro rfl
    exact h hx
  exact htake.last ((reads_accept_none (by simp)).last (reads_pure _ _))

theorem reads_symbol (symbol : Text) (rest : Text) :
    Reads (Reader.symbol [symbol]) symbol symbol rest := by
  intro passed
  have hpiece : Cursor.piece ⟨passed, symbol ++ rest, 0, 0⟩ symbol.length == symbol := by
    simp [Cursor.piece]
  have hforward : Cursor.forward symbol.length ⟨passed, symbol ++ rest, 0, 0⟩ =
      ⟨symbol.reverse ++ passed, rest, 0, 0⟩ := forward_append symbol passed rest
  unfold Reader.symbol
  simp only [List.find?_cons, hpiece, hforward]

theorem reads_word {extra : Char → Bool} (hne : t ≠ [])
    (ht : ∀ x ∈ t, (Text.isWord x || extra x) = true)
    (hrest : ∀ x, rest.head? = some x → (Text.isWord x || extra x) = false) :
    Reads (word extra) t t rest := by
  obtain ⟨y, t, rfl⟩ := List.exists_cons_of_ne_nil hne
  refine (reads_expectInput (by simp)).look ((reads_peek rfl).look ?_)
  exact .ite_pos (ht y (by simp)) (reads_takeWhile ht hrest)

theorem reads_number {x : Char} (ht : ∀ y ∈ t, (Text.isDigit y || y == '.') = true)
    (hx : rest.head? = some x) (hstop : (Text.isDigit x || x == '.') = false) :
    Reads number t t rest := by
  have htake : Reads (takeWhile fun c => Text.isDigit c || c == '.') t t rest := by
    refine reads_takeWhile ht fun y hy => ?_
    rw [hx] at hy
    cases hy
    exact hstop
  exact htake.last ((reads_peek hx).look (reads_pure _ _))

theorem reads_quotedString {q : Char} {body value : Text} (hq : isQuote q = true)
    (hclose : closingQuote q q (body ++ q :: rest) = some (body, rest))
    (hvalue : Text.literal? q (body ++ [q]) = some value) :
    Reads quotedString (q :: body ++ [q]) value rest := by
  intro passed
  simp [quotedString, Cursor.ahead, hq, hclose, Cursor.span, Cursor.past, hvalue]

/-! ## Repeated turns -/

theorem Reads.iterate {turn : σ → Reader (σ ⊕ α)} {s s' : σ} {steps : Text} (x : Char)
    (hturn : Reads (turn s) t (.inl s') (t' ++ rest))
    (hloop : Reads (Reader.iterate turn steps s') t' a rest) :
    Reads (Reader.iterate turn (x :: steps) s) (t ++ t') a rest :=
  hturn.bind hloop

theorem Reads.iterate_last {turn : σ → Reader (σ ⊕ α)} {s : σ} {steps : Text} (x : Char)
    (hturn : Reads (turn s) t (.inr a) rest) :
    Reads (Reader.iterate turn (x :: steps) s) t a rest :=
  hturn.last (reads_pure _ _)

theorem Reads.gather_some {turn : Reader (Option α)} {acc : List α}
    (hturn : Reads turn t (some a) rest) : Reads (gather turn acc) t (.inl (a :: acc)) rest :=
  hturn.last (reads_pure _ _)

theorem Reads.gather_none {turn : Reader (Option α)} {acc : List α}
    (hturn : Reads turn t none rest) : Reads (gather turn acc) t (.inr acc.reverse) rest :=
  hturn.last (reads_pure _ _)

end Haml.Reader
