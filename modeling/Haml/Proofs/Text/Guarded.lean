import Haml.Escape.Quotes
import Haml.Proofs.Text.OpenVariables
import Haml.Reader

/-!
Texts between quotes. A text is guarded if a backslash stands before each of its quotes; cut at the
quotes without one, a text that is put together from guarded pieces falls into these pieces. Main
statements: escaping guards a text outside of tags and leaves tags as they are; the replacement of
inline variables keeps a text guarded and keeps its last character; and a backslash before each
quote does not change which variables a text leaves open.
-/
namespace Haml

theorem Reader.eq_of_isQuote {q : Char} (h : Reader.isQuote q = true) : q = '"' ∨ q = '\'' := by
  simpa [Reader.isQuote] using h

namespace Text

/-- The pieces of a text between the characters `q` that stand behind no backslash; `before` is the
character in front of the text. -/
def cuts (q : Char) : (before : Char) → Text → List Text
  | _, [] => [[]]
  | before, x :: t =>
    if x = q ∧ before ≠ '\\' then [] :: cuts q x t else (cuts q x t).modifyHead (x :: ·)

/-- Every `q` stands behind a backslash; `before` is the character in front of the text. -/
def Guarded (q : Char) : (before : Char) → Text → Prop
  | _, [] => True
  | before, x :: t => (x = q → before = '\\') ∧ Guarded q x t

variable {q x before before' : Char} {t u : Text}

theorem guarded_of_not_mem (h : q ∉ t) : Guarded q before t := by
  induction t generalizing before with
  | nil => trivial
  | cons x t ih =>
    rw [List.mem_cons, not_or] at h
    exact ⟨fun hx => absurd hx.symm h.1, ih h.2⟩

theorem Guarded.mono (h : Guarded q before t) (hb : before = '\\' → before' = '\\') :
    Guarded q before' t := by
  cases t with
  | nil => trivial
  | cons x t => exact ⟨fun hx => hb (h.1 hx), h.2⟩

theorem guarded_append :
    Guarded q before (t ++ u) ↔
      Guarded q before t ∧ Guarded q (t.getLast?.getD before) u := by
  induction t generalizing before with
  | nil => simp [Guarded]
  | cons x t ih =>
    rw [List.cons_append, Guarded, Guarded, ih, and_assoc, List.getLast?_cons]
    rfl

theorem guarded_join :
    Guarded q before (t ++ x :: u) ↔
      Guarded q before t ∧ (x = q → t.getLast?.getD before = '\\') ∧ Guarded q x u :=
  guarded_append

/-- A guarded text is cut off at the quote behind it, unless the text ends in a backslash. -/
theorem cuts_append (h : Guarded q before t) (hend : t.getLast?.getD before ≠ '\\') (u : Text) :
    cuts q before (t ++ q :: u) = t :: cuts q q u := by
  induction t generalizing before with
  | nil => rw [List.nil_append, cuts, if_pos ⟨rfl, hend⟩]
  | cons x t ih =>
    rw [List.getLast?_cons] at hend
    rw [List.cons_append, cuts, if_neg fun hx => hx.2 (h.1 hx.1), ih h.2 hend]
    rfl

theorem cuts_eq (h : Guarded q before t) : cuts q before t = [t] := by
  induction t generalizing before with
  | nil => rfl
  | cons x t ih =>
    rw [cuts, if_neg fun hx => hx.2 (h.1 hx.1), ih h.2]
    rfl

/-! ## Quotes with a backslash before them -/

def guard (q : Char) (t : Text) : Text := replaceChar q ['\\', q] t

theorem guard_cons_self (q : Char) (t : Text) : guard q (q :: t) = '\\' :: q :: guard q t := by
  simp [guard, replaceChar]

theorem guard_cons (h : x ≠ q) (t : Text) : guard q (x :: t) = x :: guard q t := by
  simp [guard, replaceChar, h]

theorem guard_append (q : Char) (t u : Text) : guard q (t ++ u) = guard q t ++ guard q u :=
  List.flatMap_append

theorem guard_of_not_mem (h : q ∉ t) : guard q t = t := by
  induction t with
  | nil => rfl
  | cons x t ih =>
    rw [List.mem_cons, not_or] at h
    rw [guard_cons (Ne.symm h.1), ih h.2]

theorem guarded_guard (hq : q ≠ '\\') (t : Text) : Guarded q before (guard q t) := by
  induction t generalizing before with
  | nil => trivial
  | cons x t ih =>
    by_cases hx : x = q
    · rw [hx, guard_cons_self]
      exact ⟨fun h => absurd h.symm hq, fun _ => rfl, ih⟩
    · rw [guard_cons hx]
      exact ⟨fun h => absurd h hx, ih⟩

theorem getLast?_guard (q : Char) (t : Text) : (guard q t).getLast? = t.getLast? := by
  induction t with
  | nil => rfl
  | cons x t ih =>
    by_cases hx : x = q
    · rw [hx, guard_cons_self, List.getLast?_cons, List.getLast?_cons, List.getLast?_cons, ih]
      rfl
    · rw [guard_cons hx, List.getLast?_cons, List.getLast?_cons, ih]

theorem mem_guard {y : Char} (hy : y ≠ '\\') : y ∈ guard q t ↔ y ∈ t := by
  induction t with
  | nil => rfl
  | cons x t ih =>
    by_cases hx : x = q
    · rw [hx, guard_cons_self]
      simp [ih, hy]
    · rw [guard_cons hx]
      simp [ih]

theorem length_guard (q : Char) (t : Text) : (guard q t).length = t.length + t.count q := by
  induction t with
  | nil => rfl
  | cons x t ih =>
    by_cases hx : x = q
    · rw [hx, guard_cons_self, List.count_cons_self]
      simp only [List.length_cons, ih]
      omega
    · rw [guard_cons hx, List.count_cons_of_ne hx]
      simp only [List.length_cons, ih]
      omega

theorem guard_eq_self_iff : guard q t = t ↔ q ∉ t := by
  refine ⟨fun h hmem => ?_, guard_of_not_mem⟩
  have hlength := length_guard q t
  have hcount := List.count_pos_iff.mpr hmem
  rw [h] at hlength
  omega

end Text

namespace Escape

open Text

variable {q : Char} {t u : Text}

/-- Where no tag begins, a backslash is put before each quote. -/
theorem quotesFrom_append (h : ∀ v, v <:+ t → v ≠ [] → ¬ ['{', '%'] <+: v ++ u) :
    quotesFrom q false (t ++ u) = guard q t ++ quotesFrom q false u := by
  induction t with
  | nil => rfl
  | cons x t ih =>
    have hinside : insideTag false x (t ++ u) = false := by
      unfold insideTag
      split
      · next hopen =>
        obtain ⟨rfl, hhead⟩ := hopen
        obtain ⟨w, hw⟩ := List.head?_eq_some_iff.mp hhead
        exact absurd ⟨w, congrArg ('{' :: ·) hw.symm⟩ (h ('{' :: t) List.suffix_rfl (by simp))
      · split <;> rfl
    rw [List.cons_append, quotesFrom, hinside,
      ih fun v hv => h v (hv.trans (List.suffix_cons x t))]
    by_cases hx : x = q
    · rw [hx, guard_cons_self, if_pos ⟨rfl, rfl⟩]
      rfl
    · rw [guard_cons hx, if_neg fun hand => hx hand.1]
      rfl

theorem quotesFrom_eq_guard (h : ¬ ['{', '%'] <:+: t) :
    quotesFrom q false t = guard q t := by
  have happend := quotesFrom_append (q := q) (t := t) (u := []) fun v hv _ hopen => by
    rw [List.append_nil] at hopen
    exact h (hopen.isInfix.trans hv.isInfix)
  rw [List.append_nil] at happend
  exact happend.trans (List.append_nil _)

/-- Inside a tag nothing is changed. -/
theorem quotesFrom_tag (h : '{' ∉ t) (hclose : '%' ∉ t) (u : Text) :
    quotesFrom q true (t ++ u) = t ++ quotesFrom q true u := by
  induction t with
  | nil => rfl
  | cons x t ih =>
    rw [List.mem_cons, not_or] at h hclose
    have hinside : insideTag true x (t ++ u) = true := by
      unfold insideTag
      rw [if_neg fun hopen => h.1 hopen.1.symm, if_neg fun hend => hclose.1 hend.1.symm]
    rw [List.cons_append, quotesFrom, hinside, ih h.2 hclose.2, if_neg (by simp)]
    rfl

end Escape

namespace InlineVariable

open Text

variable {b : Bool} {q before before' : Char} {o : Option Char} {t body rest : Text}

theorem firm_of_isQuote (h : Reader.isQuote q = true) : Firm b q := by
  rcases Reader.eq_of_isQuote h with rfl | rfl <;> cases b <;>
    exact ⟨by decide, by decide, by decide, by decide, by decide⟩

/-! ## Variables in guarded texts -/

theorem White.ne_backslash (h : White t) {x : Char} (hx : x ≠ '\\') : t.getLast?.getD x ≠ '\\' := by
  cases hlast : t.getLast? with
  | none => exact hx
  | some y =>
    rintro rfl
    exact absurd (h _ (List.mem_of_getLast? hlast)) (by decide)

/-- The body of a variable and what comes after the variable are guarded if the whole text is. -/
theorem guarded_parts (h : Guarded q before t) (hs : start? b t = some (body, rest)) :
    Guarded q ' ' body ∧ Guarded q '}' rest := by
  obtain ⟨x, lead, trail, rfl, -, hlead, -⟩ := start?_parts hs
  obtain ⟨-, -, hparts⟩ := h
  obtain ⟨⟨⟨-, hbody⟩, -⟩, hrest⟩ := by
    simpa only [guarded_append] using hparts
  exact ⟨hbody.mono fun h => absurd h (hlead.ne_backslash (by decide)), hrest.2⟩

theorem guarded_expandFrom (hq : Firm b q) (h : Guarded q before t)
    (hb : before = '\\' → before' = '\\') : Guarded q before' (expandFrom b o t) := by
  induction hn : t.length using Nat.strong_induction_on generalizing before before' o t with
  | _ n ih =>
    subst hn
    cases t with
    | nil =>
      rw [expandFrom]
      trivial
    | cons x t =>
      rcases expandFrom_cases b o x t with ⟨body, rest, hsome, ho⟩ | hnone
      · obtain ⟨hbody, hrest⟩ := guarded_parts h hsome
        have hopening {c d : Char} : '{' = q → c = d := fun h => absurd h.symm hq.opening
        have hclosing {c d : Char} : '}' = q → c = d := fun h => absurd h.symm hq.closing
        have hspace {c d : Char} : ' ' = q → c = d := by
          rintro rfl
          exact absurd hq.white (by decide)
        rw [expandFrom_start ho hsome]
        have hrest' : Guarded q '}' (expandFrom b (some '}') rest) :=
          ih _ (length_start?_lt hsome) hrest id rfl
        exact ⟨hopening, hopening, hspace,
          guarded_join.mpr ⟨hbody, hspace, hclosing, hclosing, hrest'⟩⟩
      · rw [expandFrom_step hnone]
        exact ⟨fun hx => hb (h.1 hx), ih _ (Nat.lt_succ_self _) h.2 id rfl⟩

theorem guarded_unescape (hq : Firm b q) (h : Guarded q before t)
    (hb : before = '\\' → before' = '\\') : Guarded q before' (unescape b t) := by
  induction hn : t.length using Nat.strong_induction_on generalizing before before' t with
  | _ n ih =>
    subst hn
    rcases unescape_cases b t with rfl | ⟨u, body, rest, rfl, hsome⟩ | ⟨x, u, rfl, hstep⟩
    · rw [unescape]
      trivial
    · obtain ⟨x, v, rfl, htake, hx⟩ := start?_taken hsome
      have hne : x ≠ q := by
        rintro rfl
        rw [hq.mark] at hx
        cases hx
      obtain ⟨-, -, hparts⟩ := h
      obtain ⟨hv, hbrace, hrest⟩ := guarded_join.mp hparts
      rw [unescape_start hsome, htake, List.append_assoc]
      refine ⟨fun h => absurd h hne, guarded_join.mpr ⟨hv, hbrace, ?_⟩⟩
      exact ih _ (Nat.lt_succ_of_lt (length_start?_lt hsome)) hrest id rfl
    · rw [unescape_step hstep]
      exact ⟨fun hx => hb (h.1 hx), ih _ (Nat.lt_succ_self _) h.2 id rfl⟩

/-- Replacing keeps a text guarded. -/
theorem guarded_replace (hq : Firm b q) (h : Guarded q before t) : Guarded q before (replace b t) :=
  guarded_unescape hq (guarded_expandFrom hq h id) id

theorem getLast?_join (t : Text) (x : Char) (u : Text) :
    (t ++ x :: u).getLast? = some (u.getLast?.getD x) := by
  rw [List.getLast?_append, List.getLast?_cons, Option.some_or]

theorem getLast?_expandFrom (b : Bool) (o : Option Char) (t : Text) :
    (expandFrom b o t).getLast? = t.getLast? := by
  induction hn : t.length using Nat.strong_induction_on generalizing o t with
  | _ n ih =>
    subst hn
    cases t with
    | nil => rw [expandFrom]
    | cons x t =>
      rcases expandFrom_cases b o x t with ⟨body, rest, hsome, ho⟩ | hnone
      · obtain ⟨u, hu⟩ := suffix_of_start? hsome
        rw [expandFrom_start ho hsome, ← hu, getLast?_join,
          ← ih _ (length_start?_lt hsome) (some '}') _ rfl]
        exact (getLast?_join ('{' :: '{' :: ' ' :: body) ' ' _).trans (by simp [List.getLast?_cons])
      · rw [expandFrom_step hnone, List.getLast?_cons, List.getLast?_cons,
          ih _ (Nat.lt_succ_self _) _ _ rfl]

theorem getLast?_unescape (b : Bool) (t : Text) : (unescape b t).getLast? = t.getLast? := by
  induction hn : t.length using Nat.strong_induction_on generalizing t with
  | _ n ih =>
    subst hn
    rcases unescape_cases b t with rfl | ⟨u, body, rest, rfl, hsome⟩ | ⟨x, u, rfl, hstep⟩
    · rw [unescape]
    · obtain ⟨x, v, rfl, htake, -⟩ := start?_taken hsome
      rw [unescape_start hsome, htake, List.append_assoc, List.singleton_append, getLast?_join,
        ih _ (Nat.lt_succ_of_lt (length_start?_lt hsome)) _ rfl]
      exact (getLast?_join ('\\' :: x :: v) '}' rest).symm
    · rw [unescape_step hstep, List.getLast?_cons, List.getLast?_cons,
        ih _ (Nat.lt_succ_self _) _ rfl]

/-- Replacing keeps the last character of a text. -/
theorem getLast?_replace (b : Bool) (t : Text) : (replace b t).getLast? = t.getLast? := by
  rw [replace, getLast?_unescape, getLast?_expandFrom]

/-! ## Variables that are left open -/

theorem any_isStop_guard (q : Char) (t : Text) :
    (guard q t).any isStop = t.any isStop := by
  induction t with
  | nil => rfl
  | cons x t ih =>
    by_cases hx : x = q
    · rw [hx, guard_cons_self, List.any_cons, List.any_cons, List.any_cons, ih]
      rfl
    · rw [guard_cons hx, List.any_cons, List.any_cons, ih]

theorem closes_guard (hq : Firm b q) (t : Text) : closes (guard q t) = closes t := by
  have hstop : isStop q = false := by
    have hbreak : q ≠ '\n' := by
      rintro rfl
      exact absurd hq.white (by decide)
    simp [isStop, hq.closing, hbreak]
  induction t with
  | nil => rfl
  | cons x t ih =>
    by_cases hx : x = q
    · rw [hx, guard_cons_self, closes_black (by decide), closes_black hq.white, List.any_cons,
        hstop, any_isStop_guard]
      rfl
    · rw [guard_cons hx]
      cases hwhite : Text.isWhite x with
      | true => rw [closes_white hwhite, closes_white hwhite, ih]
      | false => rw [closes_black hwhite, closes_black hwhite, any_isStop_guard]

/-- A backslash before each quote closes no variable and opens none. -/
theorem leavesOpen_guard (hq : Firm b q) (t : Text) :
    leavesOpen b (guard q t) = leavesOpen b t := by
  induction t with
  | nil => rfl
  | cons x t ih =>
    by_cases hx : x = q
    · have hslash : isMark b '\\' = false := by cases b <;> rfl
      rw [hx, guard_cons_self, leavesOpen, leavesOpen, leavesOpen, ih, opensAt_of_not_mark hslash,
        opensAt_of_not_mark hq.mark, opensAt_of_not_mark hq.mark]
      rfl
    · rw [guard_cons hx, leavesOpen, leavesOpen, ih]
      congr 1
      cases t with
      | nil => rfl
      | cons y t =>
        by_cases hbrace : y = '{'
        · rw [hbrace, guard_cons hq.opening.symm, opensAt_brace, opensAt_brace, closes_guard hq]
        · have hhead : (guard q (y :: t)).head? ≠ some '{' := by
            by_cases hy : y = q
            · rw [hy, guard_cons_self]
              simp
            · rw [guard_cons hy]
              simpa using hbrace
          rw [opensAt_of_ne hhead, opensAt_of_ne (by simpa using hbrace)]

end InlineVariable

end Haml
