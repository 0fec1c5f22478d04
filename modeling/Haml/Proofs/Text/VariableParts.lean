import Haml.Proofs.Text.Variables
import Mathlib.Data.List.TakeWhile

/-!
The parts of an inline variable. A variable is a mark, a brace, white space, a body, white space and
a brace; whatever has these parts, with neither a brace nor a line break in the body, is a variable.
Replacing goes from left to right: either it expands a variable, or it keeps a character.
-/
namespace Haml.InlineVariable

/-! ## Finding a variable -/

variable {b : Bool} {before : Option Char} {x : Char} {t body rest : Text}

def White (t : Text) : Prop := ∀ x ∈ t, Text.isWhite x = true

theorem white_takeWhile (t : Text) : White (t.takeWhile Text.isWhite) :=
  fun _ hx => List.mem_takeWhile_imp hx

theorem closing?_eq_none (h : '}' ∉ t) : closing? t = none := by
  rw [Option.eq_none_iff_forall_ne_some]
  intro r hr
  rw [closing?_eq_some] at hr
  exact h ((List.dropWhile_suffix _).subset (hr ▸ List.mem_cons_self ..))

/-- A text that is not all white space and has no brace is not passed over on the way to one. -/
theorem closing?_append_eq_none (h : '}' ∉ t) (hx : x ∈ t) (hblack : Text.isWhite x = false)
    (w : Text) : closing? (t ++ w) = none := by
  rw [Option.eq_none_iff_forall_ne_some]
  intro r hr
  rw [closing?_eq_some] at hr
  induction t with
  | nil => cases hx
  | cons y t ih =>
    rw [List.mem_cons, not_or] at h
    rw [List.cons_append, List.dropWhile_cons] at hr
    split at hr
    · next hy =>
      rcases List.mem_cons.mp hx with rfl | hx
      · rw [hblack] at hy
        cases hy
      · exact ih h.2 hx hr
    · exact h.1 (List.cons.inj hr).1.symm

theorem body?_eq_none (h : '}' ∉ t.tail) : body? t = none := by
  induction t with
  | nil => rfl
  | cons x t ih =>
    have h : '}' ∉ t := h
    rw [body?, closing?_eq_none h, ih fun hm => h (List.mem_of_mem_tail hm)]
    exact ite_self _

theorem body?_parts (h : body? t = some (body, rest)) :
    ∃ trail, t = body ++ trail ++ '}' :: rest ∧ White trail := by
  induction t generalizing body with
  | nil => simp [body?] at h
  | cons x t ih =>
    rw [body?] at h
    split at h
    · cases h
    · split at h
      · next hc =>
        cases h
        refine ⟨t.takeWhile Text.isWhite, ?_, white_takeWhile t⟩
        rw [List.singleton_append, List.cons_append, ← closing?_eq_some.mp hc,
          List.takeWhile_append_dropWhile]
      · obtain ⟨r, hr, heq⟩ := Option.map_eq_some_iff.mp h
        cases heq
        obtain ⟨trail, rfl, htrail⟩ := ih hr
        exact ⟨trail, rfl, htrail⟩

theorem body?_eq_some (hne : body ≠ []) (hbody : ∀ x ∈ body, x ≠ '}' ∧ x ≠ '\n')
    (hlast : ∀ x ∈ body.getLast?, Text.isWhite x = false) {trail : Text} (htrail : White trail)
    (rest : Text) : body? (body ++ trail ++ '}' :: rest) = some (body, rest) := by
  induction body with
  | nil => exact absurd rfl hne
  | cons x body ih =>
    rw [List.cons_append, List.cons_append, body?, if_neg (hbody x (by simp)).2]
    cases body with
    | nil =>
      have hclosing : closing? ([] ++ trail ++ '}' :: rest) = some rest := by
        rw [closing?_eq_some, List.nil_append, List.dropWhile_append_of_pos htrail]
        rfl
      rw [hclosing]
    | cons y body' =>
      obtain ⟨z, hz⟩ : ∃ z, (y :: body').getLast? = some z := ⟨_, List.getLast?_cons⟩
      have hclosing : closing? (y :: body' ++ trail ++ '}' :: rest) = none := by
        rw [List.append_assoc]
        refine closing?_append_eq_none (fun hmem => ?_) (List.mem_of_getLast? hz) ?_ _
        · exact (hbody '}' (List.mem_cons_of_mem x hmem)).1 rfl
        · exact hlast z (List.getLast?_cons_cons.trans hz)
      rw [hclosing, ih (List.cons_ne_nil y body') (fun w hw => hbody w (List.mem_cons_of_mem x hw))
        fun w hw => hlast w (List.getLast?_cons_cons.trans hw)]
      rfl

theorem braced?_parts (h : braced? t = some (body, rest)) :
    ∃ lead trail, t = lead ++ body ++ trail ++ '}' :: rest ∧ White lead ∧ White trail := by
  have hsplit := List.takeWhile_append_dropWhile (p := Text.isWhite) (l := t)
  unfold braced? at h
  split at h
  · next hb =>
    cases h
    obtain ⟨trail, ht, htrail⟩ := body?_parts hb
    refine ⟨_, trail, ?_, white_takeWhile t, htrail⟩
    rw [ht] at hsplit
    simpa using hsplit.symm
  · split at h
    · next x hrest hfind =>
      cases h
      obtain ⟨-, front, back, hfront, -⟩ := List.find?_eq_some_iff_append.mp hfind
      have hwhite := white_takeWhile t
      have htake : t.takeWhile Text.isWhite = back.reverse ++ x :: front.reverse := by
        rw [← List.reverse_reverse (t.takeWhile _), hfront]
        simp
      rw [htake] at hsplit hwhite
      refine ⟨back.reverse, front.reverse, ?_, fun x hx => hwhite x (by simp_all),
        fun x hx => hwhite x (by simp_all)⟩
      rw [← hsplit, hrest]
      simp
    · cases h

/-- A variable is a mark and a brace, white space, the body, white space and a brace. -/
theorem start?_parts (h : start? b t = some (body, rest)) :
    ∃ x lead trail, t = x :: '{' :: (lead ++ body ++ trail ++ '}' :: rest) ∧ isMark b x = true ∧
      White lead ∧ White trail := by
  unfold start? at h
  split at h
  · next x t =>
    split at h
    · next hx =>
      obtain ⟨lead, trail, rfl, hlead, htrail⟩ := braced?_parts h
      exact ⟨x, lead, trail, rfl, hx, hlead, htrail⟩
    · cases h
  · cases h

/-- A body without braces and line breaks, with white space around it, makes a variable. -/
theorem start?_eq_some {m : Char} (hm : isMark b m = true) (hne : body ≠ [])
    (hbody : ∀ x ∈ body, x ≠ '}' ∧ x ≠ '\n') (hfirst : ∀ x ∈ body.head?, Text.isWhite x = false)
    (hlast : ∀ x ∈ body.getLast?, Text.isWhite x = false) {lead trail : Text} (hlead : White lead)
    (htrail : White trail) (rest : Text) :
    start? b (m :: '{' :: (lead ++ body ++ trail ++ '}' :: rest)) = some (body, rest) := by
  obtain ⟨x, u, rfl⟩ := List.exists_cons_of_ne_nil hne
  have hdrop : (lead ++ x :: u ++ trail ++ '}' :: rest).dropWhile Text.isWhite =
      x :: u ++ trail ++ '}' :: rest := by
    rw [List.append_assoc, List.append_assoc, List.dropWhile_append_of_pos hlead, List.cons_append,
      List.dropWhile_cons, if_neg (by simp [hfirst x rfl])]
    simp
  rw [start?, if_pos hm, braced?, hdrop, body?_eq_some hne hbody hlast htrail]

theorem suffix_of_start? (h : start? b t = some (body, rest)) : '}' :: rest <:+ t := by
  obtain ⟨x, lead, trail, rfl, -⟩ := start?_parts h
  exact ⟨x :: '{' :: (lead ++ body ++ trail), by simp⟩

/-- What is taken for a variable begins with its mark and ends with its brace. -/
theorem start?_taken (h : start? b t = some (body, rest)) :
    ∃ x u, t = x :: u ++ '}' :: rest ∧ t.take (t.length - rest.length) = x :: u ++ ['}'] ∧
      isMark b x = true := by
  obtain ⟨x, lead, trail, rfl, hx, -⟩ := start?_parts h
  refine ⟨x, '{' :: (lead ++ body ++ trail), by simp, ?_, hx⟩
  have hsplit : x :: '{' :: (lead ++ body ++ trail ++ '}' :: rest) =
      (x :: '{' :: (lead ++ body ++ trail) ++ ['}']) ++ rest := by simp
  rw [hsplit, List.length_append, Nat.add_sub_cancel, List.take_left]

theorem start?_of_not_mark (h : isMark b x = false) (t : Text) : start? b (x :: t) = none := by
  unfold start?
  split
  · next heq =>
    obtain ⟨rfl, -⟩ := List.cons.inj heq
    rw [h]
    rfl
  · rfl

theorem start?_of_head?_ne (h : t.head? ≠ some '{') (x : Char) : start? b (x :: t) = none := by
  unfold start?
  split
  · next heq =>
    obtain ⟨-, rfl⟩ := List.cons.inj heq
    exact absurd rfl h
  · rfl

theorem start?_eq_none_of_not_mem (h : '}' ∉ t) : start? b t = none := by
  rw [Option.eq_none_iff_forall_ne_some]
  rintro ⟨body, rest⟩ hr
  exact h ((suffix_of_start? hr).subset (List.mem_cons_self ..))

/-! ## Replacing -/

theorem expandFrom_start (hb : before ≠ some '\\') (h : start? b t = some (body, rest)) :
    expandFrom b before t =
      '{' :: '{' :: ' ' :: (body ++ ' ' :: '}' :: '}' :: expandFrom b (some '}') rest) := by
  cases t with
  | nil => cases h
  | cons x t =>
    rw [expandFrom]
    split
    · next heq =>
      rw [if_neg hb, h] at heq
      cases heq
      simp
    · next heq =>
      rw [if_neg hb, h] at heq
      cases heq

theorem expandFrom_step (h : before = some '\\' ∨ start? b (x :: t) = none) :
    expandFrom b before (x :: t) = x :: expandFrom b (some x) t := by
  have hnone : (if before = some '\\' then none else start? b (x :: t)) = none := by
    split
    · rfl
    · next hb => exact h.resolve_left hb
  rw [expandFrom]
  split
  · next heq => rw [hnone] at heq; cases heq
  · rfl

/-- Either a variable is expanded at the start of a text, or the first character is kept. -/
theorem expandFrom_cases (b : Bool) (before : Option Char) (x : Char) (t : Text) :
    (∃ body rest, start? b (x :: t) = some (body, rest) ∧ before ≠ some '\\') ∨
      (before = some '\\' ∨ start? b (x :: t) = none) := by
  by_cases hb : before = some '\\'
  · exact .inr (.inl hb)
  · cases h : start? b (x :: t) with
    | some r => exact .inl ⟨r.1, r.2, rfl, hb⟩
    | none => exact .inr (.inr rfl)

theorem expandFrom_before (h : before ≠ some '\\') :
    expandFrom b before t = expandFrom b none t := by
  cases t with
  | nil => rw [expandFrom, expandFrom]
  | cons x t =>
    cases hs : start? b (x :: t) with
    | some r =>
      obtain ⟨body, rest⟩ := r
      rw [expandFrom_start h hs, expandFrom_start (by simp) hs]
    | none => rw [expandFrom_step (.inr hs), expandFrom_step (.inr hs)]

theorem expandFrom_of_not_mem (h : '}' ∉ t) : expandFrom b before t = t := by
  induction t generalizing before with
  | nil => rw [expandFrom]
  | cons x t ih =>
    rw [expandFrom_step (.inr (start?_eq_none_of_not_mem h)),
      ih fun hm => h (List.mem_cons_of_mem x hm)]

theorem unescape_start (h : start? b t = some (body, rest)) :
    unescape b ('\\' :: t) = t.take (t.length - rest.length) ++ unescape b rest := by
  rw [unescape]
  split
  · next heq =>
    rw [if_pos rfl, h] at heq
    cases heq
    rfl
  · next heq =>
    rw [if_pos rfl, h] at heq
    cases heq

theorem unescape_step (h : x ≠ '\\' ∨ start? b t = none) :
    unescape b (x :: t) = x :: unescape b t := by
  have hnone : (if x = '\\' then start? b t else none) = none := by
    split
    · next hx => exact h.resolve_left fun hne => hne hx
    · rfl
  rw [unescape]
  split
  · next heq => rw [hnone] at heq; cases heq
  · rfl

/-- Either a backslash before a variable is dropped, or the first character is kept. -/
theorem unescape_cases (b : Bool) (t : Text) :
    t = [] ∨ (∃ u body rest, t = '\\' :: u ∧ start? b u = some (body, rest)) ∨
      ∃ x u, t = x :: u ∧ (x ≠ '\\' ∨ start? b u = none) := by
  cases t with
  | nil => exact .inl rfl
  | cons x u =>
    by_cases hx : x = '\\'
    · cases h : start? b u with
      | some r => exact .inr (.inl ⟨u, r.1, r.2, by rw [hx], h⟩)
      | none => exact .inr (.inr ⟨x, u, rfl, .inr h⟩)
    · exact .inr (.inr ⟨x, u, rfl, .inl hx⟩)

theorem unescape_of_not_mem (h : '}' ∉ t) : unescape b t = t := by
  induction t with
  | nil => rw [unescape]
  | cons x t ih =>
    have ht : '}' ∉ t := fun hm => h (List.mem_cons_of_mem x hm)
    rw [unescape_step (.inr (start?_eq_none_of_not_mem ht)), ih ht]

theorem replace_of_not_mem (h : '}' ∉ t) : replace b t = t := by
  rw [replace, expandFrom_of_not_mem h, unescape_of_not_mem h]

/-- A character that begins no variable and escapes none stays in front. -/
theorem replace_step (hmark : isMark b x = false) (hslash : x ≠ '\\') (t : Text) :
    replace b (x :: t) = x :: replace b t := by
  have hbefore : some x ≠ some '\\' := fun heq => hslash (Option.some.inj heq)
  rw [replace, expandFrom_step (.inr (start?_of_not_mark hmark t)), expandFrom_before hbefore,
    unescape_step (.inl hslash), replace]

/-- Nothing begins in a text without braces that does not end in a mark or a backslash. -/
theorem replace_append_left (h : '{' ∉ t)
    (hlast : ∀ x ∈ t.getLast?, isMark b x = false ∧ x ≠ '\\') (w : Text) :
    replace b (t ++ w) = t ++ replace b w := by
  have hend : ∀ y, [y] <:+ t → isMark b y = false ∧ y ≠ '\\' := by
    rintro y ⟨u, rfl⟩
    exact hlast y List.getLast?_concat
  -- no variable begins at a character of `t`, whatever is put in place of `w`
  have hstart : ∀ (y : Char) (u v : Text), y :: u <:+ t → start? b (y :: (u ++ v)) = none := by
    intro y u v hsuffix
    cases u with
    | nil => exact start?_of_not_mark (hend y hsuffix).1 v
    | cons z u =>
      have hz : z ≠ '{' := by
        rintro rfl
        exact h (hsuffix.subset (by simp))
      exact start?_of_head?_ne (by simpa using hz) y
  have hexpand : ∀ (u : Text) (o : Option Char), u <:+ t → (u = [] → o ≠ some '\\') →
      expandFrom b o (u ++ w) = u ++ expandFrom b none w := by
    intro u
    induction u with
    | nil => exact fun o _ ho => expandFrom_before (ho rfl)
    | cons y u ih =>
      intro o hsuffix _
      rw [List.cons_append, expandFrom_step (.inr (hstart y u w hsuffix)),
        ih _ ((List.suffix_cons y u).trans hsuffix)]
      · rfl
      · rintro rfl hy
        exact (hend y hsuffix).2 (Option.some.inj hy)
  have hunescape : ∀ (u v : Text), u <:+ t → unescape b (u ++ v) = u ++ unescape b v := by
    intro u v
    induction u with
    | nil => exact fun _ => rfl
    | cons y u ih =>
      intro hsuffix
      have hsuffix' := (List.suffix_cons y u).trans hsuffix
      rw [List.cons_append, unescape_step, ih hsuffix']
      · rfl
      · cases u with
        | nil => exact .inl (hend y hsuffix).2
        | cons z u => exact .inr (hstart z u v hsuffix')
  rw [replace, hexpand t none List.suffix_rfl (by simp), hunescape t _ List.suffix_rfl, replace]

/-- A variable with no other one behind it. -/
theorem replace_variable (h : start? b t = some (body, rest)) (hbody : '{' ∉ body)
    (hrest : '{' ∉ rest) :
    replace b t = '{' :: '{' :: ' ' :: (body ++ ' ' :: '}' :: '}' :: rest) := by
  have hunmarked : '{' ∉ ' ' :: (body ++ ' ' :: '}' :: '}' :: rest) := by simp [hbody, hrest]
  rw [replace, expandFrom_start (by simp) h, expandFrom_eq (unmarked_of_not_mem hrest),
    unescape_step (.inl (by decide)), unescape_step (.inl (by decide)),
    unescape_eq (unmarked_of_not_mem hunmarked)]

end Haml.InlineVariable
