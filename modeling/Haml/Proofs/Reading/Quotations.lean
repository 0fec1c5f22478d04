import Haml.Proofs.Reading.Exact
import Haml.Proofs.Text.Quoting
import Mathlib.Data.Bool.AllAny

/-!
Written literals as they are read. The reader of quoted strings looks for the closing quote by the
character in front of it, and then the literal is evaluated by the rules of escapes. The two agree
on where a written literal ends, unless its text ends in a backslash: the closing quote then stands
after a backslash and is taken for an escaped one.
-/
namespace Haml.Reader

variable {q : Char} {t : Text}

/-- What the reader of quoted strings makes of the text after an opening quote. -/
theorem quotedString_eq (hq : isQuote q = true) (passed source : Text) :
    quotedString ⟨passed, q :: source, 0, 0⟩ =
      match closingQuote q q source with
      | none => reject (.unterminatedString q) ⟨(q :: source).reverse ++ passed, [], 0, 0⟩
      | some (body, rest) =>
        match Text.literal? q (body ++ [q]) with
        | some value => .ok value ⟨(q :: body ++ [q]).reverse ++ passed, rest, 0, 0⟩
        | none => .error .badLiteral ⟨(q :: body ++ [q]).reverse ++ passed, rest, 0, 0⟩ := by
  simp only [quotedString, Cursor.ahead, if_true, if_pos hq]
  cases closingQuote q q source with
  | none => simp [Cursor.past]
  | some found =>
    have hspan : Cursor.span ⟨passed, q :: source, 0, 0⟩ (q :: found.1 ++ [q]) =
        q :: (found.1 ++ [q]) := by simp [Cursor.span]
    cases hvalue : Text.literal? q (found.1 ++ [q]) with
    | none => simp only [hspan, Cursor.past, if_true, List.reverseAux_eq, hvalue]
    | some value => simp only [hspan, Cursor.past, if_true, List.reverseAux_eq, hvalue]

/-- After a string the position is behind the quote that closes it. -/
theorem exists_closingQuote (hq : isQuote q = true) {passed source value : Text} {c : Cursor}
    (h : quotedString ⟨passed, q :: source, 0, 0⟩ = .ok value c) :
    ∃ body, closingQuote q q source = some (body, c.rest) := by
  rw [quotedString_eq hq] at h
  cases hclose : closingQuote q q source with
  | none =>
    rw [hclose] at h
    cases h
  | some found =>
    obtain ⟨body, rest⟩ := found
    rw [hclose] at h
    cases hvalue : Text.literal? q (body ++ [q]) with
    | none => simp [hvalue] at h
    | some v =>
      simp only [hvalue] at h
      cases h
      exact ⟨body, rfl⟩

theorem closingQuote_eq_none (h : q ∉ t) (before : Char) : closingQuote q before t = none := by
  cases hclose : closingQuote q before t with
  | none => rfl
  | some found =>
    obtain ⟨body, rest⟩ := found
    rw [closingQuote_eq hclose] at h
    exact absurd (by simp) h

/-- The quote after a text that ends in a backslash does not close its literal, so the search goes
on behind that quote. -/
theorem closingQuote_behind (hq : isQuote q = true) (hlast : t.getLast? = some '\\') (rest : Text) :
    closingQuote q q (Text.quotedBody q t ++ q :: rest) =
      (closingQuote q q rest).map fun r => (Text.quotedBody q t ++ q :: r.1, r.2) := by
  have hend : (Text.quotedBody q t).getLastD q = '\\' := by
    rw [Text.getLastD_quotedBody hq, List.getLastD_eq_getLast?, hlast]
    rfl
  rw [Text.closingQuote_quotedBody_append hq, hend, closingQuote, if_neg (by simp), Option.map_map]
  rfl

/-- A written literal is read to its text, up to its closing quote and no further, if and only if
the text does not end in a backslash. If it does, and no such quote follows, the literal is reported
as one without an end. -/
theorem quotedString_quoted_iff (hq : isQuote q = true) (hnul : ∀ x ∈ t, x.toNat ≠ 0)
    (passed rest : Text) :
    (quotedString ⟨passed, Text.quoted q t ++ rest, 0, 0⟩ =
      .ok t ⟨(Text.quoted q t).reverse ++ passed, rest, 0, 0⟩ ↔ t.getLast? ≠ some '\\') ∧
    (t.getLast? = some '\\' → q ∉ rest →
      quotedString ⟨passed, Text.quoted q t ++ rest, 0, 0⟩ =
        reject (.unterminatedString q) ⟨(Text.quoted q t ++ rest).reverse ++ passed, [], 0, 0⟩) := by
  have htext : Text.quoted q t ++ rest = q :: (Text.quotedBody q t ++ q :: rest) := by
    simp [Text.quoted]
  constructor
  · constructor
    · intro hread hlast
      rw [htext] at hread
      obtain ⟨body, hclose⟩ := exists_closingQuote hq hread
      rw [closingQuote_behind hq hlast] at hclose
      obtain ⟨⟨body', rest'⟩, hfound, heq⟩ := Option.map_eq_some_iff.mp hclose
      -- a quote that is found behind the closing one leaves less than is to be left
      have hlength := congrArg List.length (closingQuote_eq hfound)
      obtain ⟨-, rfl⟩ := Prod.mk.inj heq
      simp only [List.length_append, List.length_cons] at hlength
      omega
    · intro hlast
      have hclose := Text.closingQuote_quotedBody hq rest t q (fun _ => Text.quote_ne_backslash hq)
        hlast
      exact reads_quotedString hq hclose (Text.literal?_quotedBody hq hnul) passed
  · intro hlast hnot
    rw [htext, quotedString_eq hq, closingQuote_behind hq hlast, closingQuote_eq_none hnot]
    rfl

/-- A text with a backslash before each kind of character, and another quote after its literal. -/
theorem quotedString_quoted_iff_mixed :
    Text.quoted '\'' "it's \\' \\\" \\\n.".toList =
      "'it\\'s \\\\\\' \\\\\" \\\\\\n.'".toList ∧
    quotedString ⟨[], "'it\\'s \\\\\\' \\\\\" \\\\\\n.''".toList, 0, 0⟩ =
      .ok "it's \\' \\\" \\\n.".toList
        ⟨"'it\\'s \\\\\\' \\\\\" \\\\\\n.'".toList.reverse, ['\''], 0, 0⟩ := by
  have hwritten : Text.quoted '\'' "it's \\' \\\" \\\n.".toList =
      "'it\\'s \\\\\\' \\\\\" \\\\\\n.'".toList := by decide
  have hread := (quotedString_quoted_iff (q := '\'') (t := "it's \\' \\\" \\\n.".toList) (by decide)
    (List.all_iff_forall_prop.mp (by decide)) [] ['\'']).1.mpr (by decide)
  rw [hwritten] at hread
  exact ⟨hwritten, hread⟩

/-- The text of a single backslash is written between quotes and is not read back. -/
theorem backslash_unterminated :
    Text.quoted '\'' ['\\'] = "'\\\\'".toList ∧
    quotedString ⟨[], "'\\\\'".toList, 0, 0⟩ =
      .error (.rejected (.unterminatedString '\'') (some "'\\\\'".toList))
        ⟨"'\\\\'".toList.reverse, [], 0, 0⟩ := by
  constructor
  · decide
  · rfl

end Haml.Reader
