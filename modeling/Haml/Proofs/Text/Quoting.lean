import Haml.Reader

/-!
Quoted literals as they are written. `Text.quoted q t` is the text `t` between two quotes `q`, with a
backslash before each backslash and each `q`, and line breaks as escapes. Main statements: the
closing quote is found where it stands, and the literal has the value `t`.
-/
namespace Haml.Text

/-- How one character is written between the quotes `q`. -/
def escaped (q c : Char) : Text :=
  if c = '\n' then ['\\', 'n']
  else if c = '\r' then ['\\', 'r']
  else if c = '\\' ∨ c = q then ['\\', c]
  else [c]

def quotedBody (q : Char) (t : Text) : Text := t.flatMap (escaped q)

def quoted (q : Char) (t : Text) : Text := q :: quotedBody q t ++ [q]

theorem quotedBody_cons (q c : Char) (t : Text) :
    quotedBody q (c :: t) = escaped q c ++ quotedBody q t := rfl

variable {q : Char}

/-- A text without anything to be escaped stands between the quotes as it is. -/
theorem quoted_eq {t : Text} (h : ∀ x ∈ t, x ∉ [q, '\\', '\n', '\r']) :
    quoted q t = q :: t ++ [q] := by
  have hbody : quotedBody q t = t := by
    induction t with
    | nil => rfl
    | cons c t ih =>
      have hc := h c (by simp)
      simp only [List.mem_cons, not_or] at hc
      have hself : escaped q c = [c] := by simp [escaped, hc]
      rw [quotedBody_cons, hself, ih fun x hx => h x (by simp [hx])]
      rfl
  rw [quoted, hbody]

/-- A character is written as itself or as a backslash and a character that names it. -/
theorem escaped_cases (hq : Reader.isQuote q = true) (c : Char) :
    (escaped q c = [c] ∧ c ≠ q ∧ c ≠ '\n' ∧ c ≠ '\r' ∧ c ≠ '\\') ∨
      ∃ d, escaped q c = ['\\', d] ∧ namedEscape? d = some c ∧ (d = '\\' → c = '\\') := by
  unfold escaped
  by_cases hn : c = '\n'
  · exact .inr ⟨'n', by simp [hn], by simp [hn, namedEscape?], by simp⟩
  by_cases hr : c = '\r'
  · exact .inr ⟨'r', by simp [hr], by simp [hr, namedEscape?], by simp⟩
  by_cases hb : c = '\\' ∨ c = q
  · refine .inr ⟨c, by simp [hn, hr, hb], ?_, id⟩
    have hq' : q = '"' ∨ q = '\'' := by simpa [Reader.isQuote] using hq
    obtain rfl | rfl := hb
    · rfl
    · obtain rfl | rfl := hq' <;> rfl
  · obtain ⟨hb, hcq⟩ := not_or.mp hb
    exact .inl ⟨by simp [hn, hr, hb, hcq], hcq, hn, hr, hb⟩

theorem quote_ne_backslash (hq : Reader.isQuote q = true) : q ≠ '\\' := by
  rintro rfl
  exact absurd hq (by decide)

/-- The character that names a backslash is a backslash, and it names nothing else. -/
theorem escaped_backslash_iff (hq : Reader.isQuote q = true) {c d : Char}
    (h : escaped q c = ['\\', d]) : d = '\\' ↔ c = '\\' := by
  constructor
  · rintro rfl
    obtain ⟨hc, -⟩ | ⟨e, hc, -, he⟩ := escaped_cases hq c
    · simp [hc] at h
    · rw [hc] at h
      exact he (by simpa using h)
  · rintro rfl
    simpa [escaped] using h.symm

/-- A written text ends in a backslash if and only if the text does; `before` is the character in
front of both. -/
theorem getLastD_quotedBody (hq : Reader.isQuote q = true) (t : Text) (before : Char) :
    (quotedBody q t).getLastD before = '\\' ↔ t.getLastD before = '\\' := by
  induction t generalizing before with
  | nil => rfl
  | cons c t ih =>
    rw [quotedBody_cons, List.getLastD_cons]
    obtain ⟨hc, -⟩ | ⟨d, hc, -⟩ := escaped_cases hq c
    · rw [hc, List.singleton_append, List.getLastD_cons, ih]
    · rw [hc, List.cons_append, List.singleton_append, List.getLastD_cons, List.getLastD_cons, ih]
      cases t with
      | nil => exact escaped_backslash_iff hq hc
      | cons e t => rfl

/-- No quote inside a written text closes it, so the search goes on behind the text. -/
theorem closingQuote_quotedBody_append (hq : Reader.isQuote q = true) (u t : Text) (before : Char) :
    Reader.closingQuote q before (quotedBody q t ++ u) =
      (Reader.closingQuote q ((quotedBody q t).getLastD before) u).map
        fun r => (quotedBody q t ++ r.1, r.2) := by
  induction t generalizing before with
  | nil => simp [quotedBody]
  | cons c t ih =>
    rw [quotedBody_cons]
    obtain ⟨hc, hcq, -⟩ | ⟨d, hc, -⟩ := escaped_cases hq c
    · rw [hc, List.singleton_append, List.getLastD_cons]
      simp [-List.getLastD_eq_getLast?, Reader.closingQuote, hcq, ih, Function.comp_def]
    · rw [hc, List.cons_append, List.singleton_append, List.getLastD_cons, List.getLastD_cons]
      simp [-List.getLastD_eq_getLast?, Reader.closingQuote, (quote_ne_backslash hq).symm, ih,
        Function.comp_def]

/-- The closing quote of a written text is the one that stands after it, unless the text ends in a
backslash. -/
theorem closingQuote_quotedBody (hq : Reader.isQuote q = true) (rest : Text) :
    ∀ (t : Text) (before : Char), (t = [] → before ≠ '\\') → t.getLast? ≠ some '\\' →
      Reader.closingQuote q before (quotedBody q t ++ q :: rest) = some (quotedBody q t, rest) := by
  intro t before hbefore hlast
  have hend : (quotedBody q t).getLastD before ≠ '\\' := by
    rw [ne_eq, getLastD_quotedBody hq, List.getLastD_eq_getLast?]
    cases h : t.getLast? with
    | none => exact hbefore (List.getLast?_eq_none_iff.mp h)
    | some x =>
      rintro rfl
      exact hlast h
  rw [closingQuote_quotedBody_append hq, Reader.closingQuote, if_pos ⟨rfl, hend⟩]
  simp

theorem unquote_quotedBody (hq : Reader.isQuote q = true) (t : Text) :
    unquote q (quotedBody q t ++ [q]) = some (t, []) := by
  induction t with
  | nil =>
    rw [quotedBody, List.flatMap_nil, List.nil_append, unquote, if_pos rfl]
  | cons c t ih =>
    rw [quotedBody_cons]
    obtain ⟨hc, hcq, hn, hr, hb⟩ | ⟨d, hc, hd, _⟩ := escaped_cases hq c
    · rw [hc, List.singleton_append, List.cons_append, unquote, if_neg hcq, if_neg (by simp [hn, hr]),
        if_neg hb, ih]
      rfl
    · have hesc : escape? (d :: (quotedBody q t ++ [q])) = some ([c], quotedBody q t ++ [q]) := by
        simp only [escape?, hd]
      rw [hc, List.append_assoc, List.cons_append, List.cons_append, List.nil_append, unquote,
        if_neg (quote_ne_backslash hq).symm, if_neg (by decide), if_pos rfl]
      split
      · next h => simp [hesc] at h
      · next u rest h =>
        rw [hesc] at h
        cases h
        rw [ih]
        rfl

theorem toNat_ne_zero_of_namedEscape? {c d : Char} (h : namedEscape? d = some c) :
    d.toNat ≠ 0 := by
  intro hd
  obtain rfl : d = '\x00' := Char.ext (UInt32.toNat_inj.mp hd)
  exact absurd h (by simp [namedEscape?])

theorem toNat_ne_zero_of_mem_quotedBody {t : Text} {x : Char} (hq : Reader.isQuote q = true)
    (hnul : ∀ y ∈ t, y.toNat ≠ 0) (hx : x ∈ quotedBody q t) : x.toNat ≠ 0 := by
  obtain ⟨c, hc, hx⟩ := List.mem_flatMap.mp hx
  obtain ⟨he, _⟩ | ⟨d, he, hd, _⟩ := escaped_cases hq c
  · obtain rfl : x = c := by simpa [he] using hx
    exact hnul x hc
  · obtain rfl | rfl : x = '\\' ∨ x = d := by simpa [he] using hx
    · decide
    · exact toNat_ne_zero_of_namedEscape? hd

/-- A literal has the value it was written for, if that holds no NUL. -/
theorem literal?_quotedBody {t : Text} (hq : Reader.isQuote q = true)
    (hnul : ∀ x ∈ t, x.toNat ≠ 0) : literal? q (quotedBody q t ++ [q]) = some t := by
  have hquote : q.toNat ≠ 0 := by
    intro h
    obtain rfl : q = '\x00' := Char.ext (UInt32.toNat_inj.mp h)
    exact absurd hq (by decide)
  have hnone : (quotedBody q t ++ [q]).any (·.toNat == 0) = false := by
    rw [List.any_eq_false]
    intro x hx
    simp only [beq_iff_eq]
    obtain hx | hx := List.mem_append.mp hx
    · exact toNat_ne_zero_of_mem_quotedBody hq hnul hx
    · rwa [List.mem_singleton.mp hx]
  rw [literal?, unquote_quotedBody hq]
  simp only [hnone, Bool.false_eq_true, if_false]
  rfl

end Haml.Text
