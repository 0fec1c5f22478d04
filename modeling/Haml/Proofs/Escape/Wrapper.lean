import Haml.Escape.Quotes

/-!
Escaping of the wrapper can be undone. `metFrom` pairs every character of a text with the state in
which the run over the text meets it, inside a template tag or outside. The run looks at two
characters at a time, but no opener and no closer has a wrapper or a backslash in it, so the run
over an escaped text meets the characters of the text in the same states as the run over the text
itself.
-/
namespace Haml.Escape

/-- The characters of a text, each with whether it is met inside a template tag. -/
def metFrom (inside : Bool) : Text → List (Char × Bool)
  | [] => []
  | c :: rest => (c, insideTag inside c rest) :: metFrom (insideTag inside c rest) rest

def withGuard (q : Char) (m : Char × Bool) : List (Char × Bool) :=
  if m = (q, false) then [('\\', false), m] else [m]

/-- The characters without each backslash that stands directly before a `q` met outside. -/
def unguard (q : Char) : List (Char × Bool) → List (Char × Bool)
  | [] => []
  | m :: ms => if m.1 = '\\' ∧ ms.head? = some (q, false) then unguard q ms else m :: unguard q ms

def extendFirst (c : Char) : List Text → List Text
  | [] => [[c]]
  | t :: ts => (c :: t) :: ts

/-- The parts of a text that are met inside a tag, each as long as it can be. -/
def insideParts : List (Char × Bool) → List Text
  | [] => []
  | (_, false) :: ms => insideParts ms
  | (c, true) :: ms =>
    if ms.head?.any (·.2) then extendFirst c (insideParts ms) else [c] :: insideParts ms

variable {q : Char} {t : Text}

theorem map_metFrom (inside : Bool) (t : Text) : (metFrom inside t).map Prod.fst = t := by
  induction t generalizing inside with
  | nil => rfl
  | cons c t ih => simp [metFrom, ih]

/-! ## The states on the escaped text -/

/-- A character that is no delimiter does not change the state. -/
theorem insideTag_of_ne {c : Char} (hopen : c ≠ '{') (hclose : c ≠ '%') (inside : Bool)
    (rest : Text) : insideTag inside c rest = inside := by
  simp [insideTag, hopen, hclose]

/-- A backslash stands before a wrapper only, so any other character comes first in the escaped text
if and only if it does so in the text. -/
theorem head?_quotesFrom {x : Char} (hx : x ≠ q) (hbackslash : x ≠ '\\') (inside : Bool)
    (t : Text) : (quotesFrom q inside t).head? = some x ↔ t.head? = some x := by
  cases t with
  | nil => rfl
  | cons c t =>
    simp only [quotesFrom]
    split
    · next h => simp [h.1, hx.symm, hbackslash.symm]
    · simp

/-- A wrapper: one of the two quotes. -/
theorem wrapper_ne (hq : q = '\'' ∨ q = '"') : '%' ≠ q ∧ '}' ≠ q ∧ q ≠ '{' ∧ q ≠ '\\' := by
  obtain rfl | rfl := hq <;> decide

theorem insideTag_quotesFrom (hq : q = '\'' ∨ q = '"') (inside inside' : Bool) (c : Char)
    (t : Text) : insideTag inside c (quotesFrom q inside' t) = insideTag inside c t := by
  obtain ⟨hpercent, hbrace, -, -⟩ := wrapper_ne hq
  simp only [insideTag, head?_quotesFrom hpercent (by decide), head?_quotesFrom hbrace (by decide)]

/-- One step of the run over an escaped text: the run over the text makes the same one. -/
theorem metFrom_quotesFrom_cons (hq : q = '\'' ∨ q = '"') (inside : Bool) (c : Char) (t : Text) :
    metFrom inside (quotesFrom q inside (c :: t)) =
      withGuard q (c, insideTag inside c t) ++
        metFrom (insideTag inside c t) (quotesFrom q (insideTag inside c t) t) := by
  by_cases h : c = q ∧ insideTag inside c t = false
  · obtain ⟨rfl, hstate⟩ := h
    obtain ⟨hpercent, -, hopen, -⟩ := wrapper_ne hq
    -- a wrapper does not change the state, so the run was outside before it
    have houtside : inside = false := by
      rw [← hstate, insideTag_of_ne hopen hpercent.symm]
    subst houtside
    have hbackslash (rest : Text) : insideTag false '\\' rest = false :=
      insideTag_of_ne (by decide) (by decide) false rest
    simp [quotesFrom, withGuard, hstate, metFrom, hbackslash, insideTag_quotesFrom hq]
  · have hplain : (c, insideTag inside c t) ≠ (q, false) := by
      intro heq
      exact h (Prod.mk.inj heq)
    simp [quotesFrom, withGuard, h, hplain, metFrom, insideTag_quotesFrom hq]

/-- The run over an escaped text meets the characters of the text in the states of the run over the
text, with a backslash before each wrapper that is met outside. -/
theorem metFrom_quotesFrom (hq : q = '\'' ∨ q = '"') (inside : Bool) (t : Text) :
    metFrom inside (quotesFrom q inside t) = (metFrom inside t).flatMap (withGuard q) := by
  induction t generalizing inside with
  | nil => rfl
  | cons c t ih => rw [metFrom_quotesFrom_cons hq, ih, metFrom, List.flatMap_cons]

/-! ## What the backslashes do -/

variable {ms : List (Char × Bool)}

theorem head?_withGuard_ne (hq : q ≠ '\\') (ms : List (Char × Bool)) :
    (ms.flatMap (withGuard q)).head? ≠ some (q, false) := by
  cases ms with
  | nil => simp
  | cons m ms =>
    by_cases h : m = (q, false)
    · simp [withGuard, h, hq.symm]
    · simp [withGuard, h]

theorem unguard_flatMap (hq : q ≠ '\\') (ms : List (Char × Bool)) :
    unguard q (ms.flatMap (withGuard q)) = ms := by
  induction ms with
  | nil => rfl
  | cons m ms ih =>
    have hrest : unguard q (m :: ms.flatMap (withGuard q)) = m :: ms := by
      rw [unguard, if_neg fun h => head?_withGuard_ne hq ms h.2, ih]
    rw [List.flatMap_cons]
    by_cases h : m = (q, false)
    · rw [withGuard, if_pos h, List.cons_append, unguard, if_pos ⟨rfl, by simp [h]⟩]
      exact hrest
    · rw [withGuard, if_neg h]
      exact hrest

/-- Before each wrapper that is met outside stands its backslash. -/
theorem backslash_before (hq : q ≠ '\\') {before after : List (Char × Bool)}
    (h : ms.flatMap (withGuard q) = before ++ (q, false) :: after) :
    ∃ front, before = front ++ [('\\', false)] := by
  induction ms generalizing before with
  | nil => simp at h
  | cons m ms ih =>
    rw [List.flatMap_cons] at h
    by_cases hm : m = (q, false)
    · rw [withGuard, if_pos hm, hm] at h
      cases before with
      | nil => simp [hq.symm] at h
      | cons x before =>
        obtain ⟨rfl, htail⟩ := List.cons_eq_cons.mp h
        cases before with
        | nil => exact ⟨[], rfl⟩
        | cons y before =>
          obtain ⟨front, rfl⟩ := ih (List.cons_eq_cons.mp htail).2
          exact ⟨_ :: y :: front, rfl⟩
    · rw [withGuard, if_neg hm] at h
      cases before with
      | nil => exact absurd (List.cons_eq_cons.mp h).1 hm
      | cons x before =>
        obtain ⟨front, rfl⟩ := ih (List.cons_eq_cons.mp h).2
        exact ⟨x :: front, rfl⟩

/-- The backslashes are met outside, and so is what follows them; no part inside is changed, and no
two parts are joined. -/
theorem insideParts_flatMap (q : Char) (ms : List (Char × Bool)) :
    insideParts (ms.flatMap (withGuard q)) = insideParts ms := by
  have hstate (ms : List (Char × Bool)) :
      (ms.flatMap (withGuard q)).head?.any (·.2) = ms.head?.any (·.2) := by
    cases ms with
    | nil => rfl
    | cons m ms => by_cases h : m = (q, false) <;> simp [withGuard, h]
  induction ms with
  | nil => rfl
  | cons m ms ih =>
    rw [List.flatMap_cons]
    obtain ⟨c, state⟩ := m
    cases state with
    | false =>
      by_cases h : (c, false) = (q, false) <;> simp [withGuard, h, insideParts, ih]
    | true =>
      have h : (c, true) ≠ (q, false) := by simp
      rw [withGuard, if_neg h, List.singleton_append, insideParts, insideParts, ih, hstate]

/-- Over an escaped text, the run meets each wrapper outside directly after a backslash. Without
these backslashes it has met the characters of the text, in the same states as the run over the
text, and the parts inside template tags are those of the text. -/
theorem quotes_reversible (hq : q = '\'' ∨ q = '"') (t : Text) :
    (∀ before after, metFrom false (quotes [q] t) = before ++ (q, false) :: after →
      ∃ front, before = front ++ [('\\', false)]) ∧
    (unguard q (metFrom false (quotes [q] t))).map Prod.fst = t ∧
    unguard q (metFrom false (quotes [q] t)) = metFrom false t ∧
    insideParts (metFrom false (quotes [q] t)) = insideParts (metFrom false t) := by
  have hrun : metFrom false (quotes [q] t) = (metFrom false t).flatMap (withGuard q) :=
    metFrom_quotesFrom hq false t
  have hbackslash := (wrapper_ne hq).2.2.2
  have hundone : unguard q (metFrom false (quotes [q] t)) = metFrom false t := by
    rw [hrun, unguard_flatMap hbackslash]
  constructor
  · intro before after h
    rw [hrun] at h
    exact backslash_before hbackslash h
  · constructor
    · rw [hundone, map_metFrom]
    · exact ⟨hundone, by rw [hrun, insideParts_flatMap]⟩

/-- A tag between quotes, one of which has a backslash of its own, and an opener without closer. -/
theorem quotes_reversible_mixed :
    quotes ['\''] "a\\' \x7b% b 'c' %\x7d'\x7b%\x7d' \x7b% 'd".toList =
      "a\\\\' \x7b% b 'c' %\x7d\\'\x7b%\x7d\\' \x7b% 'd".toList ∧
    insideParts
        (metFrom false (quotes ['\''] "a\\' \x7b% b 'c' %\x7d'\x7b%\x7d' \x7b% 'd".toList)) =
      ["\x7b% b 'c' ".toList, "\x7b".toList, "\x7b% 'd".toList] := by
  constructor
  · decide
  · rw [(quotes_reversible (.inl rfl) _).2.2.2]
    decide

end Haml.Escape
