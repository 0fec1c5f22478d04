import Haml.Proofs.Text.VariableParts

/-!
Inline variables in texts that are put together. A text leaves a variable open if a mark stands
before a brace in it and what follows neither ends the variable nor breaks the line. Main statement:
where two texts meet at a character that can belong to no variable, the variables of both are
replaced on their own, unless the first one leaves a variable open and the second one has a closing
brace.
-/
namespace Haml.InlineVariable

/-- The characters that decide whether a variable ends. -/
def isStop (x : Char) : Bool := x == '}' || x == '\n'

/-- Whether a variable whose brace stands before the text is decided by the text: it ends in it, or
a line break keeps it from ending. -/
def closes (t : Text) : Bool := (t.dropWhile Text.isWhite).tail.any isStop

/-- Whether a text starts with a variable that it does not decide. -/
def opensAt (b : Bool) : Text → Bool
  | x :: '{' :: t => isMark b x && !closes t
  | _ => false

/-- Whether some variable of a text is not decided by it. -/
def leavesOpen (b : Bool) : Text → Bool
  | [] => false
  | x :: t => opensAt b (x :: t) || leavesOpen b t

/-- A character that is no part of a variable, however the text goes on. -/
structure Firm (b : Bool) (z : Char) : Prop where
  white : Text.isWhite z = false
  opening : z ≠ '{'
  closing : z ≠ '}'
  mark : isMark b z = false
  backslash : z ≠ '\\'

variable {b : Bool} {before : Option Char} {x z : Char} {t u w body rest : Text}

theorem leavesOpen_of_suffix (h : t <:+ u) (hu : leavesOpen b u = false) :
    leavesOpen b t = false := by
  induction u with
  | nil =>
    rw [List.suffix_nil.mp h]
    exact hu
  | cons x u ih =>
    rw [leavesOpen, Bool.or_eq_false_iff] at hu
    rcases List.suffix_cons_iff.mp h with rfl | h
    · rw [leavesOpen, hu.1, hu.2]
      rfl
    · exact ih h hu.2

/-! ## Single variables -/

theorem Firm.dropWhile (hz : Firm b z) (t w : Text) :
    (t ++ z :: w).dropWhile Text.isWhite = t.dropWhile Text.isWhite ++ z :: w := by
  induction t with
  | nil => simp [hz.white]
  | cons x t ih =>
    rw [List.cons_append, List.dropWhile_cons, List.dropWhile_cons, ih]
    split <;> rfl

theorem Firm.takeWhile (hz : Firm b z) (t w : Text) :
    (t ++ z :: w).takeWhile Text.isWhite = t.takeWhile Text.isWhite := by
  induction t with
  | nil => simp [hz.white]
  | cons x t ih => rw [List.cons_append, List.takeWhile_cons, List.takeWhile_cons, ih]

theorem Firm.closing? (hz : Firm b z) (t w : Text) :
    InlineVariable.closing? (t ++ z :: w) = (InlineVariable.closing? t).map (· ++ z :: w) := by
  apply Option.ext
  intro r
  rw [Option.map_eq_some_iff, closing?_eq_some, hz.dropWhile]
  simp only [closing?_eq_some]
  cases t.dropWhile Text.isWhite with
  | nil => simp [hz.closing]
  | cons x u =>
    rw [List.cons_append, List.cons.injEq]
    constructor
    · rintro ⟨rfl, rfl⟩
      exact ⟨u, rfl, rfl⟩
    · rintro ⟨_, heq, rfl⟩
      cases heq
      exact ⟨rfl, rfl⟩

/-- The body of a variable ends where it ends in the first text, if the line or the variable ends
there or no brace follows. -/
theorem Firm.body? (hz : Firm b z) (h : '\n' ∈ t ∨ '}' ∈ t.tail ∨ '}' ∉ w) :
    InlineVariable.body? (t ++ z :: w) =
      (InlineVariable.body? t).map fun r => (r.1, r.2 ++ z :: w) := by
  induction t with
  | nil => exact body?_eq_none (h.elim (by simp) (·.elim (by simp) id))
  | cons x t ih =>
    rw [List.cons_append, InlineVariable.body?, InlineVariable.body?, hz.closing?]
    split
    · rfl
    · next hx =>
      cases hc : InlineVariable.closing? t with
      | some r => rfl
      | none =>
        rw [ih]
        · simp [Option.map_map, Function.comp_def]
        · rcases h with h | h | h
          · exact .inl ((List.mem_cons.mp h).resolve_left (Ne.symm hx))
          · cases t with
            | nil => simp at h
            | cons y t =>
              rcases List.mem_cons.mp h with rfl | h
              · have hsome : InlineVariable.closing? ('}' :: t) = some t :=
                  closing?_eq_some.mpr rfl
                rw [hsome] at hc
                cases hc
              · exact .inr (.inl h)
          · exact .inr (.inr h)

theorem Firm.braced? (hz : Firm b z) (h : closes t = true ∨ '}' ∉ w) :
    InlineVariable.braced? (t ++ z :: w) =
      (InlineVariable.braced? t).map fun r => (r.1, r.2 ++ z :: w) := by
  have hbody : '\n' ∈ t.dropWhile Text.isWhite ∨ '}' ∈ (t.dropWhile Text.isWhite).tail ∨
      '}' ∉ w := by
    rcases h with h | h
    · obtain ⟨x, hx, hstop⟩ := List.any_eq_true.mp h
      simp only [isStop, Bool.or_eq_true, beq_iff_eq] at hstop
      rcases hstop with rfl | rfl
      · exact .inr (.inl hx)
      · exact .inl (List.mem_of_mem_tail hx)
    · exact .inr (.inr h)
  unfold InlineVariable.braced?
  rw [hz.dropWhile, hz.takeWhile, hz.body? hbody]
  cases InlineVariable.body? (t.dropWhile Text.isWhite) with
  | some found => rfl
  | none =>
    cases t.dropWhile Text.isWhite with
    | nil => simp [hz.closing]
    | cons y u =>
      by_cases hy : y = '}'
      · subst hy
        cases (t.takeWhile Text.isWhite).reverse.find? (· != '\n') <;> rfl
      · simp [hy]

/-- A variable at the start of a text that decides it is not changed by what follows. -/
theorem Firm.start? (hz : Firm b z) (h : opensAt b t = false ∨ '}' ∉ w) :
    InlineVariable.start? b (t ++ z :: w) =
      (InlineVariable.start? b t).map fun r => (r.1, r.2 ++ z :: w) := by
  match t with
  | [] => exact start?_of_not_mark hz.mark w
  | [x] => simp [InlineVariable.start?, hz.opening]
  | x :: y :: t =>
    by_cases hy : y = '{'
    · subst hy
      simp only [List.cons_append, InlineVariable.start?]
      split
      · next hx =>
        refine hz.braced? (h.imp_left fun h => ?_)
        simpa [opensAt, hx] using h
      · rfl
    · simp [InlineVariable.start?, hy]

/-! ## Whole texts -/

theorem Firm.expandFrom (hz : Firm b z) (h : leavesOpen b t = false ∨ '}' ∉ w) :
    InlineVariable.expandFrom b before (t ++ z :: w) =
      InlineVariable.expandFrom b before t ++ z :: InlineVariable.expandFrom b (some z) w := by
  induction hn : t.length using Nat.strong_induction_on generalizing before t with
  | _ n ih =>
    subst hn
    cases t with
    | nil =>
      rw [List.nil_append, expandFrom_step (.inr (start?_of_not_mark hz.mark w)),
        InlineVariable.expandFrom]
      rfl
    | cons x t =>
      have hstart := hz.start? (b := b) (t := x :: t) (w := w) (h.imp_left fun h => by
        rw [leavesOpen, Bool.or_eq_false_iff] at h
        exact h.1)
      rcases expandFrom_cases b before x t with ⟨body, rest, hsome, hb⟩ | hnone
      · have hsuffix : rest <:+ x :: t := (List.suffix_cons '}' rest).trans (suffix_of_start? hsome)
        rw [hsome] at hstart
        rw [expandFrom_start hb hsome, expandFrom_start hb hstart,
          ih _ (length_start?_lt hsome) (h.imp_left (leavesOpen_of_suffix hsuffix)) rfl]
        simp
      · have hnone' : before = some '\\' ∨ InlineVariable.start? b (x :: (t ++ z :: w)) = none := by
          refine hnone.imp_right fun hn => ?_
          rw [← List.cons_append, hstart, hn]
          rfl
        rw [expandFrom_step hnone, List.cons_append, expandFrom_step hnone',
          ih _ (Nat.lt_succ_self _) (h.imp_left (leavesOpen_of_suffix (List.suffix_cons x t))) rfl]
        rfl

theorem Firm.unescape (hz : Firm b z) (h : leavesOpen b t = false ∨ '}' ∉ w) :
    InlineVariable.unescape b (t ++ z :: w) =
      InlineVariable.unescape b t ++ z :: InlineVariable.unescape b w := by
  induction hn : t.length using Nat.strong_induction_on generalizing t with
  | _ n ih =>
    subst hn
    cases t with
    | nil =>
      rw [List.nil_append, unescape_step (.inl hz.backslash), InlineVariable.unescape]
      rfl
    | cons x t =>
      have ht : leavesOpen b t = false ∨ '}' ∉ w :=
        h.imp_left (leavesOpen_of_suffix (List.suffix_cons x t))
      have hstart := hz.start? (b := b) (t := t) (w := w) (ht.imp_left fun h => by
        cases t with
        | nil => rfl
        | cons y t =>
          rw [leavesOpen, Bool.or_eq_false_iff] at h
          exact h.1)
      by_cases hx : x = '\\'
      · subst hx
        cases hsome : InlineVariable.start? b t with
        | some r =>
          obtain ⟨body, rest⟩ := r
          have hsuffix : rest <:+ t := (List.suffix_cons '}' rest).trans (suffix_of_start? hsome)
          have hlt : rest.length < ('\\' :: t).length :=
            Nat.lt_succ_of_lt (length_start?_lt hsome)
          rw [hsome] at hstart
          have htake : (t ++ z :: w).take ((t ++ z :: w).length - (rest ++ z :: w).length) =
              t.take (t.length - rest.length) := by
            rw [List.length_append, List.length_append, Nat.add_sub_add_right,
              List.take_append_of_le_length (Nat.sub_le _ _)]
          rw [List.cons_append, unescape_start hstart, unescape_start hsome, htake,
            ih _ hlt (ht.imp_left (leavesOpen_of_suffix hsuffix)) rfl, List.append_assoc]
        | none =>
          rw [hsome] at hstart
          rw [List.cons_append, unescape_step (.inr hstart), unescape_step (.inr hsome),
            ih _ (Nat.lt_succ_self _) ht rfl]
          rfl
      · rw [List.cons_append, unescape_step (.inl hx), unescape_step (.inl hx),
          ih _ (Nat.lt_succ_self _) ht rfl]
        rfl

/-! ## Variables that are left open -/

theorem not_mark_of_white (h : Text.isWhite x = true) : isMark b x = false := by
  cases hx : isMark b x with
  | false => rfl
  | true =>
    simp only [isMark, Bool.or_eq_true, beq_iff_eq, Bool.and_eq_true] at hx
    rcases hx with rfl | ⟨-, rfl⟩ <;> exact absurd h (by decide)

theorem closes_white (h : Text.isWhite x = true) (t : Text) : closes (x :: t) = closes t := by
  rw [closes, List.dropWhile_cons, if_pos h, closes]

theorem closes_black (h : Text.isWhite x = false) (t : Text) : closes (x :: t) = t.any isStop := by
  rw [closes, List.dropWhile_cons, if_neg (by simp [h]), List.tail_cons]

/-- Whatever comes before two closing braces, a variable ends there. -/
theorem closes_braces (t w : Text) : closes (t ++ ' ' :: '}' :: '}' :: w) = true := by
  induction t with
  | nil =>
    rw [List.nil_append, closes_white (by decide), closes_black (by decide)]
    rfl
  | cons x t ih =>
    cases hx : Text.isWhite x with
    | true => rw [List.cons_append, closes_white hx, ih]
    | false =>
      rw [List.cons_append, closes_black hx, List.any_eq_true]
      exact ⟨'}', by simp, rfl⟩

theorem any_isStop_expandFrom (h : t.any isStop = true) :
    (expandFrom b before t).any isStop = true := by
  induction t generalizing before with
  | nil => cases h
  | cons x t ih =>
    rcases expandFrom_cases b before x t with ⟨body, rest, hsome, hb⟩ | hnone
    · rw [expandFrom_start hb hsome, List.any_eq_true]
      exact ⟨'}', by simp, rfl⟩
    · rw [expandFrom_step hnone, List.any_cons, Bool.or_eq_true]
      rw [List.any_cons, Bool.or_eq_true] at h
      exact h.imp_right ih

theorem closes_expandFrom (h : closes t = true) : closes (expandFrom b before t) = true := by
  induction t generalizing before with
  | nil => simp [closes] at h
  | cons x t ih =>
    cases hx : Text.isWhite x with
    | true =>
      rw [closes_white hx] at h
      rw [expandFrom_step (.inr (start?_of_not_mark (not_mark_of_white hx) t)), closes_white hx]
      exact ih h
    | false =>
      rw [closes_black hx] at h
      rcases expandFrom_cases b before x t with ⟨body, rest, hsome, hb⟩ | hnone
      · rw [expandFrom_start hb hsome]
        exact closes_braces ('{' :: '{' :: ' ' :: body) _
      · rw [expandFrom_step hnone, closes_black hx]
        exact any_isStop_expandFrom h

theorem opensAt_of_not_mark (h : isMark b x = false) (t : Text) : opensAt b (x :: t) = false := by
  unfold opensAt
  split
  · next heq =>
    obtain ⟨rfl, -⟩ := List.cons.inj heq
    rw [h]
    rfl
  · rfl

theorem opensAt_of_ne (h : t.head? ≠ some '{') (x : Char) : opensAt b (x :: t) = false := by
  unfold opensAt
  split
  · next heq =>
    obtain ⟨-, rfl⟩ := List.cons.inj heq
    exact absurd rfl h
  · rfl

theorem opensAt_brace (x : Char) (t : Text) :
    opensAt b (x :: '{' :: t) = (isMark b x && !closes t) :=
  rfl

/-- No variable is left open before two closing braces. -/
theorem leavesOpen_braces (h : leavesOpen b w = false) (t : Text) :
    leavesOpen b (t ++ ' ' :: '}' :: '}' :: w) = false := by
  induction t with
  | nil =>
    have hmarks : isMark b ' ' = false ∧ isMark b '}' = false := by cases b <;> decide
    simp [leavesOpen, opensAt_of_not_mark, hmarks, h]
  | cons x t ih =>
    rw [List.cons_append, leavesOpen, ih, Bool.or_false]
    cases t with
    | nil => exact opensAt_of_ne (by simp) x
    | cons y t =>
      by_cases hy : y = '{'
      · rw [hy, List.cons_append, opensAt_brace, closes_braces]
        simp
      · exact opensAt_of_ne (by simpa using hy) x

/-- Replacing leaves no variable open that was not so before. -/
theorem leavesOpen_expandFrom (h : leavesOpen b t = false) :
    leavesOpen b (expandFrom b before t) = false := by
  induction hn : t.length using Nat.strong_induction_on generalizing before t with
  | _ n ih =>
    subst hn
    cases t with
    | nil =>
      rw [expandFrom]
      rfl
    | cons x t =>
      rcases expandFrom_cases b before x t with ⟨body, rest, hsome, hb⟩ | hnone
      · have hsuffix : rest <:+ x :: t := (List.suffix_cons '}' rest).trans (suffix_of_start? hsome)
        have hrest : leavesOpen b (expandFrom b (some '}') rest) = false :=
          ih _ (length_start?_lt hsome) (leavesOpen_of_suffix hsuffix h) rfl
        rw [expandFrom_start hb hsome]
        exact leavesOpen_braces hrest ('{' :: '{' :: ' ' :: body)
      · have hrest : leavesOpen b (expandFrom b (some x) t) = false :=
          ih _ (Nat.lt_succ_self _) (leavesOpen_of_suffix (List.suffix_cons x t) h) rfl
        rw [expandFrom_step hnone, leavesOpen, hrest, Bool.or_false]
        rw [leavesOpen, Bool.or_eq_false_iff] at h
        cases t with
        | nil =>
          rw [expandFrom]
          rfl
        | cons y t =>
          rcases expandFrom_cases b (some x) y t with ⟨body, rest, hsome, hb⟩ | hnone
          · -- the brace behind `x` is that of an expression
            have hcloses := closes_braces ('{' :: ' ' :: body) (expandFrom b (some '}') rest)
            rw [expandFrom_start hb hsome, opensAt_brace]
            exact Bool.and_eq_false_imp.mpr fun _ => congrArg not hcloses
          · rw [expandFrom_step hnone]
            by_cases hy : y = '{'
            · subst hy
              have hopens := h.1
              rw [opensAt_brace] at hopens ⊢
              cases hx : isMark b x with
              | false => rfl
              | true =>
                rw [hx, Bool.true_and, Bool.not_eq_false'] at hopens
                rw [closes_expandFrom hopens]
                rfl
            · exact opensAt_of_ne (by simpa using hy) x

/-- The variables on both sides of a firm character are replaced on their own, unless the left side
leaves one open and the right side has a closing brace. -/
theorem replace_append (hz : Firm b z) (h : leavesOpen b t = false ∨ '}' ∉ w) :
    replace b (t ++ z :: w) = replace b t ++ z :: replace b w := by
  have hbefore : some z ≠ some '\\' := fun heq => hz.backslash (Option.some.inj heq)
  rw [replace, hz.expandFrom h, expandFrom_before hbefore, hz.unescape, replace, replace]
  rcases h with h | h
  · exact .inl (leavesOpen_expandFrom h)
  · exact .inr (by rwa [expandFrom_of_not_mem h])

theorem leavesOpen_of_not_mem (h : '{' ∉ t) : leavesOpen b t = false := by
  induction t with
  | nil => rfl
  | cons x t ih =>
    rw [List.mem_cons, not_or] at h
    rw [leavesOpen, ih h.2, opensAt_of_ne fun hhead => h.2 (List.mem_of_head? hhead)]
    rfl

end Haml.InlineVariable
