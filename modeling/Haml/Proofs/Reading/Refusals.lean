import Haml.Proofs.Reading.Twins

/-!
Elements with carriage returns before their line breaks. An element and its dictionaries are read as
without them, apart from two places in a dictionary where only a bare line break has a meaning;
there the template is refused, and `Refused` says how.
-/
namespace Haml

open Text (lead withReturns)

/-! ## Dictionaries -/

/-- What a report shows of the place before the line break between two parts of a text, if there is
a carriage return. -/
def returnPlace (before after : Text) : Text :=
  Cursor.context ⟨(withReturns before).reverse, withReturns ('\n' :: after), 0, 0⟩

/-- How a text is refused because of its carriage returns: in a dictionary, a line break stands
where only a bare one has a meaning. -/
inductive Refused (t : Text) : Failure → Prop
  /-- In braces, a line break is to separate two attributes. -/
  | comma {before after : Text} (ht : t = before ++ '\n' :: after) (hopen : '{' ∈ before) :
      Refused t (.rejected (.expected [[',']]) (some (returnPlace before after)))
  /-- The value of an attribute is to be read from the lines below. -/
  | value {before blanks after : Text} {mark : Char}
      (ht : t = before ++ mark :: (blanks ++ '\n' :: after)) (hmark : mark ∈ ['=', '>', ':'])
      (hblanks : ∀ x ∈ blanks, Text.isIndent x = true) (hopen : '{' ∈ before ∨ '(' ∈ before) :
      Refused t (.rejected (.unexpected '\r') (some (returnPlace (before ++ mark :: blanks) after)))

namespace Attribute

open Reader

variable {c c₁ : Cursor} {S : Failure → Prop} {s : Settings}
  {block : Text → Except Failure Text}

theorem scalar_twin (hcr : '\r' ∉ c.text) (h₁ : c.Moves c₁) :
    Twin c S (fun v v' _ => v = v') (scalar s c₁) (scalar s c₁.withReturns) := by
  apply (peek_twin h₁).bind
  rintro x _ c₂ h₂ ⟨rfl, rfl, -⟩
  apply Twin.ite
  · rw [Text.apply_lead isQuote rfl]
  · intro _
    apply (quotedString_twin hcr h₂).bind
    rintro v _ c₃ h₃ rfl
    exact twin_pure h₃ rfl
  · intro _
    apply Twin.ite
    · rw [Text.apply_lead Text.isDigit (by decide)]
    · intro _
      apply (number_twin h₂).bind
      rintro n _ c₃ h₃ rfl
      exact twin_pure h₃ rfl
    · intro _
      apply (word_twin rfl rfl h₂).bind
      rintro w _ c₃ h₃ ⟨rfl, -⟩
      exact twin_pure h₃ rfl

theorem itemTurn_twin (hcr : '\r' ∉ c.text) {close : Char} (hn : close ≠ '\n') (hr : close ≠ '\r')
    (h₁ : c.Moves c₁) :
    Twin c S (fun o o' _ => Option.Rel Eq o o') (itemTurn s close c₁)
      (itemTurn s close c₁.withReturns) := by
  apply (indentation_twin h₁).bind
  rintro _ _ c₂ h₂ -
  apply (peek_twin h₂).bind
  rintro x _ c₃ h₃ ⟨rfl, rfl, -⟩
  apply Twin.ite (Text.lead_eq_iff hn hr)
  · intro _
    exact twin_pure h₃ .none
  · intro _
    apply (scalar_twin hcr h₃).bind
    rintro v _ c₄ h₄ rfl
    apply (indentation_twin h₄).bind
    rintro _ _ c₅ h₅ -
    apply (peek_twin h₅).bind
    rintro y _ c₆ h₆ ⟨rfl, rfl, -⟩
    apply Twin.ite (Text.lead_eq_iff hn hr).not
    · intro _
      apply (symbol_twin (by decide) (by decide) h₆).bind
      rintro _ _ c₇ h₇ -
      exact twin_pure h₇ (.some rfl)
    · intro _
      exact twin_pure h₆ (.some rfl)

theorem items_twin (hcr : '\r' ∉ c.text) {close : Char} (hn : close ≠ '\n') (hr : close ≠ '\r')
    (h₁ : c.Moves c₁) :
    Twin c S (fun vs vs' c₂ => vs = vs' ∧ ∃ t, c₂.rest = close :: t)
      (items s close (' ' :: c₁.rest) c₁)
      (items s close (' ' :: c₁.withReturns.rest) c₁.withReturns) := by
  have hloop : Runs (gather (itemTurn s close)) [] (items s close) :=
    (progress { settings := s } fun _ => .ok []).items close
  have htwin : Twin c S (fun vs vs' _ => List.Forall₂ Eq vs vs') (items s close (' ' :: c₁.rest) c₁)
      (items s close (' ' :: c₁.withReturns.rest) c₁.withReturns) := by
    apply hloop.twin (I := List.Forall₂ Eq) _ h₁ .nil
    intro acc acc' c₂ h₂ hacc
    exact gather_twin (itemTurn_twin hcr hn hr h₂) hacc
  apply (htwin.and (items_alike anything close _ h₁ (by simp))).mono
  rintro vs vs' c₂ - ⟨hvs, hclose⟩
  exact ⟨List.forall₂_eq_eq_eq ▸ hvs, hclose⟩

theorem list_twin (hcr : '\r' ∉ c.text) (h₁ : c.Moves c₁) :
    Twin c S (fun vs vs' _ => vs = vs') (list s c₁) (list s c₁.withReturns) := by
  apply (peek_twin h₁).bind
  rintro x _ c₂ h₂ ⟨rfl, rfl, t, ht⟩
  have hround : lead x = '(' ↔ x = '(' := Text.lead_eq_iff (by decide) (by decide)
  have hsquare : lead x = '[' ↔ x = '[' := Text.lead_eq_iff (by decide) (by decide)
  apply Twin.ite (or_congr hround hsquare)
  · intro hx
    have hbreak : x ≠ '\n' := by
      rintro rfl
      simp at hx
    simp only [hround]
    apply (skip_twin h₂ ht hbreak).bind
    rintro _ _ c₃ h₃ -
    apply (allowance_twin h₃).bind
    rintro _ _ c₄ h₄ ⟨rfl, rfl, rfl⟩
    have hclose : ∀ y, y = (if x = '(' then ')' else ']') → y ≠ '\n' ∧ y ≠ '\r' := by
      rintro _ rfl
      split <;> decide
    obtain ⟨hn, hr⟩ := hclose _ rfl
    apply (items_twin hcr hn hr h₄).bind
    rintro vs _ c₅ h₅ ⟨rfl, r, hrest⟩
    apply (skip_twin h₅ hrest hn).bind
    rintro _ _ c₆ h₆ -
    exact twin_pure h₆ rfl
  · intro _
    exact twin_throw

/-- A value cannot start with a carriage return. -/
theorem scalar_return {t : Text} (h₁ : c.Moves c₁) (ht : c₁.rest = '\n' :: t) :
    scalar s c₁.withReturns =
      .error (.rejected (.unexpected '\r') (some (returnPlace c₁.passed.reverse t)))
        c₁.withReturns := by
  obtain ⟨p, u, rfl⟩ := Cursor.exists_eq_of_within h₁.1
  obtain rfl : u = '\n' :: t := ht
  rfl

/-- A carriage return is no comma. -/
theorem comma_return {t : Text} (h₁ : c.Moves c₁) (ht : c₁.rest = '\n' :: t) :
    symbol [[',']] c₁.withReturns =
      .error (.rejected (.expected [[',']]) (some (returnPlace c₁.passed.reverse t)))
        c₁.withReturns := by
  obtain ⟨p, u, rfl⟩ := Cursor.exists_eq_of_within h₁.1
  obtain rfl : u = '\n' :: t := ht
  rfl

/-- The value after the mark of an attribute. If there is a line break, it is refused. -/
theorem assigned_twin (hcr : '\r' ∉ c.text) {opens : Char → Bool} (hopens : opens '\r' = false)
    {mark : Char} {q : Text} (h₁ : c.Moves c₁) (hpassed : c₁.passed = mark :: q)
    (hmark : mark ∈ ['=', '>', ':']) (hopen : '{' ∈ q ∨ '(' ∈ q) :
    Twin c (Refused c.text) (fun v v' _ => v = v') (assigned s block opens c₁)
      (assigned s block opens c₁.withReturns) := by
  apply (indentation_twin h₁).bind
  rintro _ blanks c₂ h₂ ⟨rfl, hblanks, hrest⟩
  apply (expectInput_twin h₂).bind
  rintro _ _ c₃ h₃ rfl
  apply (peek_twin h₃).bind
  rintro x _ c₄ h₄ ⟨rfl, rfl, t, ht⟩
  by_cases hx : x = '\n'
  · subst hx
    have hblank : ∀ x ∈ blanks, Text.isIndent x = true := by
      rw [hblanks]
      exact fun x hx => List.all_eq_true.mp List.all_takeWhile x hx
    have hpassed₄ : c₄.passed = blanks.reverse ++ mark :: q := by
      rw [h₁.passed_eq h₄ hrest, hpassed]
    have htext : c.text = q.reverse ++ mark :: (blanks ++ '\n' :: t) := by
      rw [← h₄.text_eq, Cursor.text, hpassed₄, ht]
      simp
    have hrefused := scalar_return (s := s) h₄ ht
    have hbefore : c₄.passed.reverse = q.reverse ++ mark :: blanks := by simp [hpassed₄]
    rw [hbefore] at hrefused
    apply Twin.else_right (by decide)
    apply Twin.else_right (by simp [lead, hopens])
    exact Twin.refused hrefused (.value htext hmark hblank (by simpa using hopen))
  · have hlead : lead x = x := by simp [lead, hx]
    rw [hlead]
    apply Twin.ite Iff.rfl
    · intro h
      exact absurd h hx
    · intro _
      apply Twin.ite Iff.rfl
      · intro _
        apply (list_twin hcr h₄).bind
        rintro vs _ c₅ h₅ rfl
        exact twin_pure h₅ rfl
      · intro _
        apply (scalar_twin hcr h₄).bind
        rintro v _ c₅ h₅ rfl
        exact twin_pure h₅ rfl

theorem bareKey_twin (hcr : '\r' ∉ c.text) (h₁ : c.Moves c₁) :
    Twin c S (fun key key' _ => key = key') (bareKey c₁) (bareKey c₁.withReturns) := by
  apply (peek_twin h₁).bind
  rintro x _ c₂ h₂ ⟨rfl, rfl, -⟩
  apply Twin.ite
  · rw [Text.apply_lead isQuote rfl]
  · intro _
    apply (quotedString_twin hcr h₂).bind
    rintro key _ c₃ h₃ rfl
    apply Twin.ite Iff.rfl
    · intro _
      exact twin_reject
    · intro _
      exact twin_pure h₃ rfl
  · intro _
    apply (word_twin rfl rfl h₂).mono
    rintro w _ c₃ - ⟨rfl, -⟩
    rfl

/-- A key in braces, with or without a colon in front, and what is read after it. -/
theorem bracedKey_twin {β : Type} {L : β → β → Cursor → Prop} {f f' : Text → Reader β} {x : Char}
    {t : Text} (hcr : '\r' ∉ c.text) (h₁ : c.Moves c₁) (hx : c₁.rest = x :: t)
    (hf : ∀ key c₂, c.Moves c₂ → Twin c S L (f key c₂) (f' key c₂.withReturns)) :
    Twin c S L
      ((if x = ':' then do Reader.skip; let key ← Reader.word isDash; f key
        else do let key ← bareKey; f key) c₁)
      ((if lead x = ':' then do Reader.skip; let key ← Reader.word isDash; f' key
        else do let key ← bareKey; f' key) c₁.withReturns) := by
  apply Twin.ite (Text.lead_eq_iff (by decide) (by decide))
  · rintro rfl
    apply (skip_twin h₁ hx (by decide)).bind
    rintro _ _ c₂ h₂ -
    apply (word_twin rfl rfl h₂).bind
    rintro key _ c₃ h₃ ⟨rfl, -⟩
    exact hf _ c₃ h₃
  · intro _
    apply (bareKey_twin hcr h₁).bind
    rintro key _ c₂ h₂ rfl
    exact hf key c₂ h₂

/-- What was passed over stays behind the position. -/
theorem mem_passed {x : Char} (h : c.Moves c₁) (hx : x ∈ c.passed) : x ∈ c₁.passed := by
  obtain ⟨-, taken, -, hpassed⟩ := h
  rw [hpassed]
  exact List.mem_append_right _ hx

theorem bracedEntry_twin (hcr : '\r' ∉ c.text) (hopen : '{' ∈ c.passed) (h₁ : c.Moves c₁) :
    Twin c (Refused c.text) (fun entry entry' _ => entry = entry') (bracedEntry s block c₁)
      (bracedEntry s block c₁.withReturns) := by
  apply (peek_twin h₁).bind
  rintro x _ c₂ h₂ ⟨rfl, rfl, t, ht⟩
  apply bracedKey_twin hcr h₂ ht
  intro key c₃ h₃
  apply (indentation_twin h₃).bind
  rintro _ _ c₄ h₄ -
  apply (peek_twin h₄).bind
  rintro y _ c₅ h₅ ⟨rfl, rfl, -⟩
  have harrow : lead x = ':' ↔ x = ':' := Text.lead_eq_iff (by decide) (by decide)
  apply Twin.ite
  · rw [Text.lead_eq_iff (by decide) (by decide), Text.lead_eq_iff (by decide) (by decide)]
  · intro _
    simp only [harrow]
    have hsymbol : ∀ w : Text, w = (if x = ':' then ['=', '>'] else [':']) →
        '\n' ∉ w ∧ '\r' ∉ w ∧ ∃ mark w', w.reverse = mark :: w' ∧ mark ∈ ['=', '>', ':'] := by
      rintro _ rfl
      split
      · exact ⟨by decide, by decide, '>', ['='], rfl, by decide⟩
      · exact ⟨by decide, by decide, ':', [], rfl, by decide⟩
    obtain ⟨hn, hr, mark, w', hreverse, hmark⟩ := hsymbol _ rfl
    apply (symbol_twin hn hr h₅).bind
    rintro _ _ c₆ h₆ hrest
    have hpassed : c₆.passed = mark :: (w' ++ c₅.passed) := by
      rw [h₅.passed_eq h₆ hrest, hreverse, List.cons_append]
    have hopen' : '{' ∈ w' ++ c₅.passed ∨ '(' ∈ w' ++ c₅.passed :=
      .inl (List.mem_append_right _ (mem_passed h₅ hopen))
    apply (assigned_twin hcr rfl h₆ hpassed hmark hopen').bind
    rintro v _ c₇ h₇ rfl
    exact twin_pure h₇ rfl
  · intro _
    exact twin_pure h₅ rfl

theorem parenEntry_twin (hcr : '\r' ∉ c.text) (hopen : '(' ∈ c.passed) (h₁ : c.Moves c₁) :
    Twin c (Refused c.text) (fun entry entry' _ => entry = entry') (parenEntry s block c₁)
      (parenEntry s block c₁.withReturns) := by
  apply (word_twin (by decide) (by decide) h₁).bind
  rintro _ key c₂ h₂ ⟨rfl, -⟩
  apply (peek_twin h₂).bind
  rintro x _ c₃ h₃ ⟨rfl, rfl, -⟩
  apply Twin.ite
  · have hsame := Text.apply_lead (fun c => !(Text.isIndent c || c == '=' || c == ')')) rfl x
    exact iff_of_eq (congrArg (· = true) hsame)
  · intro _
    apply (unexpected_twin (K := fun _ _ _ => False) h₃).bind
    rintro _ _ _ _ ⟨⟩
  · intro _
    apply (indentation_twin h₃).bind
    rintro _ _ c₄ h₄ -
    apply (peek_twin h₄).bind
    rintro y _ c₅ h₅ ⟨rfl, rfl, -⟩
    apply Twin.ite (Text.lead_eq_iff (by decide) (by decide))
    · intro _
      apply (symbol_twin (by decide) (by decide) h₅).bind
      rintro _ _ c₆ h₆ hrest
      have hpassed : c₆.passed = '=' :: c₅.passed := h₅.passed_eq h₆ hrest
      apply (assigned_twin hcr rfl h₆ hpassed (by decide) (.inr (mem_passed h₅ hopen))).bind
      rintro v _ c₇ h₇ rfl
      exact twin_pure h₇ rfl
    · intro _
      exact twin_pure h₅ rfl

theorem record_twin (d : Attributes) (entry : Text × Value) (h₁ : c.Moves c₁) :
    Twin c S (fun d d' _ => d = d') (record d entry c₁) (record d entry c₁.withReturns) := by
  apply Twin.ite Iff.rfl
  · intro _
    exact twin_reject
  · intro _
    exact twin_pure h₁ rfl

theorem recordTurn_twin {entry : Reader (Text × Value)}
    {separate : Attributes → Char → Reader (Attributes ⊕ Attributes)} {close : Char}
    (hn : close ≠ '\n') (hr : close ≠ '\r') (d : Attributes) (h₁ : c.Moves c₁)
    (hentry : ∀ c₂, c.Moves c₂ →
      Twin c S (fun e e' _ => e = e') (entry c₂) (entry c₂.withReturns))
    (hseparate : ∀ d x c₂, c.Moves c₂ → (∃ t, c₂.rest = x :: t) →
      Twin c S (fun r r' _ => Sum.LiftRel Eq Eq r r') (separate d x c₂)
        (separate d (lead x) c₂.withReturns)) :
    Twin c S (fun r r' _ => Sum.LiftRel Eq Eq r r') (recordTurn entry close separate d c₁)
      (recordTurn entry close separate d c₁.withReturns) := by
  apply (run_twin Text.isGap rfl h₁).bind
  rintro _ _ c₂ h₂ -
  apply (atEnd_twin h₂).bind
  rintro b _ c₃ h₃ ⟨rfl, rfl, -⟩
  apply Twin.ite Iff.rfl
  · intro _
    exact twin_reject
  · intro _
    apply (peek_twin h₃).bind
    rintro x _ c₄ h₄ ⟨rfl, rfl, t, ht⟩
    apply Twin.ite (Text.lead_eq_iff hn hr)
    · rintro rfl
      apply (skip_twin h₄ ht hn).bind
      rintro _ _ c₅ h₅ -
      exact twin_pure h₅ (.inr rfl)
    · intro _
      apply (hentry c₄ h₄).bind
      rintro e _ c₅ h₅ rfl
      apply (record_twin d e h₅).bind
      rintro d' _ c₆ h₆ rfl
      apply (indentation_twin h₆).bind
      rintro _ _ c₇ h₇ -
      apply (peek_twin h₇).bind
      rintro y _ c₈ h₈ ⟨rfl, rfl, hy⟩
      exact hseparate d' y c₈ h₈ hy

theorem parenTurn_twin (hcr : '\r' ∉ c.text) (hopen : '(' ∈ c.passed) (d : Attributes)
    (h₁ : c.Moves c₁) :
    Twin c (Refused c.text) (fun r r' _ => Sum.LiftRel Eq Eq r r') (parenTurn s block d c₁)
      (parenTurn s block d c₁.withReturns) := by
  rw [parenTurn_eq]
  apply recordTurn_twin (by decide) (by decide) d h₁
  · exact fun c₂ h₂ => parenEntry_twin hcr hopen h₂
  intro d x c₂ h₂ _
  apply Twin.ite (Text.lead_eq_iff (by decide) (by decide))
  · intro _
    exact twin_reject
  · intro _
    exact twin_pure h₂ (.inl rfl)

/-- An entry in braces. If a line break separates it from the next one, it is refused. -/
theorem bracedTurn_twin (hcr : '\r' ∉ c.text) (hopen : '{' ∈ c.passed) (d : Attributes)
    (h₁ : c.Moves c₁) :
    Twin c (Refused c.text) (fun r r' _ => Sum.LiftRel Eq Eq r r') (bracedTurn s block d c₁)
      (bracedTurn s block d c₁.withReturns) := by
  rw [bracedTurn_eq]
  apply recordTurn_twin (by decide) (by decide) d h₁
  · exact fun c₂ h₂ => bracedEntry_twin hcr hopen h₂
  rintro d x c₂ h₂ ⟨t, ht⟩
  by_cases hx : x = '\n'
  · subst hx
    have hbefore : '{' ∈ c₂.passed.reverse := List.mem_reverse.mpr (mem_passed h₂ hopen)
    have htext : c.text = c₂.passed.reverse ++ '\n' :: t := by
      rw [← h₂.text_eq, Cursor.text, ht]
    apply Twin.then_right (by decide)
    exact Twin.refused (comma_return h₂ ht) (.comma htext hbefore)
  · have hlead : lead x = x := by simp [lead, hx]
    rw [hlead]
    apply Twin.ite Iff.rfl
    · intro _
      apply (symbol_twin (by decide) (by decide) h₂).bind
      rintro _ _ c₃ h₃ -
      exact twin_pure h₃ (.inl rfl)
    · intro _
      exact twin_pure h₂ (.inl rfl)

/-- A loop over the entries of a dictionary, which starts after the opening bracket. -/
theorem entries_twin {turn : Attributes → Reader (Attributes ⊕ Attributes)}
    {loop : Text → Reader Attributes} {x : Char} {t : Text} (hloop : Runs turn [] loop)
    (h₁ : c.Moves c₁) (ht : c₁.rest = x :: t) (hx : x ≠ '\n')
    (hturn : ∀ d (c₂ c₃ : Cursor), c₂.text = c.text → x ∈ c₂.passed → c₂.Moves c₃ →
      Twin c₂ (Refused c.text) (fun r r' _ => Sum.LiftRel Eq Eq r r') (turn d c₃)
        (turn d c₃.withReturns)) :
    Twin c (Refused c.text) (fun d d' _ => d = d')
      ((do Reader.skip; loop (← Reader.allowance) : Reader Attributes) c₁)
      ((do Reader.skip; loop (← Reader.allowance) : Reader Attributes) c₁.withReturns) := by
  apply (skip_twin h₁ ht hx).bind
  rintro _ _ c₂ h₂ ⟨-, hpassed⟩
  apply (allowance_twin h₂).bind
  rintro _ _ c₃ h₃ ⟨rfl, rfl, rfl⟩
  have htwin : Twin c₃ (Refused c.text) (fun d d' _ => d = d') (loop (' ' :: c₃.rest) c₃)
      (loop (' ' :: c₃.withReturns.rest) c₃.withReturns) := by
    apply hloop.twin (I := Eq) _ (.refl h₃.1) rfl
    rintro d _ c₄ h₄ rfl
    exact hturn d c₃ c₄ h₃.text_eq (by simp [hpassed]) h₄
  exact (htwin.since h₃).mono fun d d' c' _ hd => hd.2

/-- A dictionary has the same entries, unless one of its line breaks is refused. -/
theorem dictionary_twin (hcr : '\r' ∉ c.text) (h₁ : c.Moves c₁) :
    Twin c (Refused c.text) (fun d d' _ => d = d') (dictionary s block c₁)
      (dictionary s block c₁.withReturns) := by
  have hprogress := progress { settings := s } block
  apply (peek_twin h₁).bind
  rintro x _ c₂ h₂ ⟨rfl, rfl, t, ht⟩
  apply Twin.ite (Text.lead_eq_iff (by decide) (by decide))
  · rintro rfl
    apply entries_twin (hprogress.parenEntries []) h₂ ht (by decide)
    intro d c₃ c₄ htext hopen h₄
    rw [← htext] at hcr ⊢
    exact parenTurn_twin hcr hopen d h₄
  · intro _
    apply Twin.ite (Text.lead_eq_iff (by decide) (by decide))
    · rintro rfl
      apply entries_twin (hprogress.bracedEntries []) h₂ ht (by decide)
      intro d c₃ c₄ htext hopen h₄
      rw [← htext] at hcr ⊢
      exact bracedTurn_twin hcr hopen d h₄
    · intro _
      exact twin_throw

end Attribute

/-! ## Elements -/

namespace Element

open Reader
open Attribute (isDash)

variable {c c₁ : Cursor} {S : Failure → Prop} {s : Settings}
  {block : Text → Except Failure Text}

theorem tagName_twin (h₁ : c.Moves c₁) :
    Twin c S (fun w w' _ => w = w') (tagName c₁) (tagName c₁.withReturns) := by
  apply (word_twin rfl rfl h₁).bind
  rintro _ w c₂ h₂ ⟨rfl, -⟩
  apply (accept_twin (by decide) (by decide) h₂).bind
  rintro _ b c₃ h₃ ⟨rfl, -⟩
  apply Twin.ite Iff.rfl
  · intro _
    apply (word_twin rfl rfl h₃).bind
    rintro _ w' c₄ h₄ ⟨rfl, -⟩
    exact twin_pure h₄ rfl
  · intro _
    exact twin_pure h₃ rfl

theorem shortcutTurn_twin (r : Option Text × List Scalar) (h₁ : c.Moves c₁) :
    Twin c S (fun r r' _ => Sum.LiftRel Eq Eq r r') (shortcutTurn r c₁)
      (shortcutTurn r c₁.withReturns) := by
  apply (accept_twin (by decide) (by decide) h₁).bind
  rintro _ b c₂ h₂ ⟨rfl, -⟩
  apply Twin.ite Iff.rfl
  · intro _
    apply (word_twin rfl rfl h₂).bind
    rintro _ w c₃ h₃ ⟨rfl, -⟩
    exact twin_pure h₃ (.inl rfl)
  · intro _
    apply (accept_twin (by decide) (by decide) h₂).bind
    rintro _ b' c₃ h₃ ⟨rfl, -⟩
    apply Twin.ite Iff.rfl
    · intro _
      apply (word_twin rfl rfl h₃).bind
      rintro _ w c₄ h₄ ⟨rfl, -⟩
      exact twin_pure h₄ (.inl rfl)
    · intro _
      exact twin_pure h₃ (.inr rfl)

theorem dictionaryTurn_twin (hcr : '\r' ∉ c.text) (d : Attributes) (h₁ : c.Moves c₁) :
    Twin c (Refused c.text) (fun r r' _ => Sum.LiftRel Eq Eq r r') (dictionaryTurn s block d c₁)
      (dictionaryTurn s block d c₁.withReturns) := by
  have hread : ∀ c₂ : Cursor, c.Moves c₂ →
      Twin c (Refused c.text) (fun r r' _ => Sum.LiftRel Eq Eq r r')
        ((do return .inl (d.update (← Attribute.dictionary s block)) :
          Reader (Attributes ⊕ Attributes)) c₂)
        ((do return .inl (d.update (← Attribute.dictionary s block)) :
          Reader (Attributes ⊕ Attributes)) c₂.withReturns) := by
    intro c₂ h₂
    apply (Attribute.dictionary_twin hcr h₂).bind
    rintro new _ c₃ h₃ rfl
    exact twin_pure h₃ (.inl rfl)
  apply (peek?_twin h₁).bind
  rintro o o' c₂ h₂ ⟨ho, rfl, -⟩
  have hmark : ∀ y, y ≠ '\n' → y ≠ '\r' → o' = some y → o = some y := by
    intro y hn hr ho'
    rw [ho] at ho'
    obtain ⟨x, rfl, hx⟩ := Option.map_eq_some_iff.mp ho'
    rw [(Text.lead_eq_iff hn hr).mp hx]
  split
  · rw [ho]
    exact hread c₂ h₂
  · rw [ho]
    exact hread c₂ h₂
  · next hbrace hround =>
    split
    · exact absurd (hmark _ (by decide) (by decide) rfl) hbrace
    · exact absurd (hmark _ (by decide) (by decide) rfl) hround
    · exact twin_pure h₂ (.inr rfl)

theorem isBarePoint_twin {t : Text} (h₁ : c.Moves c₁) (ht : c₁.rest = '.' :: t) :
    Twin c S (fun b b' c₂ => b = b' ∧ c₂ = c₁) (isBarePoint c₁) (isBarePoint c₁.withReturns) := by
  obtain ⟨p, u, rfl⟩ := Cursor.exists_eq_of_within h₁.1
  obtain rfl : u = '.' :: t := ht
  cases t with
  | nil => exact .error
  | cons x t =>
    by_cases hx : x = '\n'
    · subst hx
      exact .ok h₁ ⟨rfl, rfl⟩
    · have hahead : (Cursor.withReturns ⟨p, '.' :: x :: t, 0, 0⟩).ahead =
          '.' :: x :: withReturns t := by
        rw [← Text.withReturns_cons hx]
        rfl
      unfold isBarePoint
      rw [hahead]
      exact .ok h₁ ⟨rfl, rfl⟩

theorem opening_twin (h₁ : c.Moves c₁) :
    Twin c S (fun r r' _ => r = r') (opening c₁) (opening c₁.withReturns) := by
  apply (peek_twin h₁).bind
  rintro x _ c₂ h₂ ⟨rfl, rfl, t, ht⟩
  apply Twin.ite (Text.lead_eq_iff (by decide) (by decide))
  · rintro rfl
    apply (skip_twin h₂ ht (by decide)).bind
    rintro _ _ c₃ h₃ -
    apply (tagName_twin h₃).bind
    rintro w _ c₄ h₄ rfl
    exact twin_pure h₄ rfl
  · intro _
    apply Twin.ite (Text.lead_eq_iff (by decide) (by decide))
    · rintro rfl
      apply (isBarePoint_twin h₂ ht).bind
      rintro b _ c₃ h₃ ⟨rfl, rfl⟩
      apply Twin.ite Iff.rfl
      · intro _
        apply (skip_twin h₃ ht (by decide)).bind
        rintro _ _ c₄ h₄ -
        exact twin_pure h₄ rfl
      · intro _
        exact twin_pure h₃ rfl
    · intro _
      apply Twin.ite (Text.lead_eq_iff (by decide) (by decide))
      · intro _
        exact twin_pure h₂ rfl
      · intro _
        exact twin_throw

/-- The shortcuts of an element, if it may have some, and what is read after them. -/
theorem shortcutsIf_twin {β : Type} {L : β → β → Cursor → Prop}
    {f f' : Option Text × List Scalar → Reader β} (hs : Bool) (h₁ : c.Moves c₁)
    (hf : ∀ r c₂, c.Moves c₂ → Twin c S L (f r c₂) (f' r c₂.withReturns)) :
    Twin c S L
      ((if hs = true then do let t ← Reader.allowance; let r ← shortcuts t none []; f r
        else do let r ← pure (none, []); f r) c₁)
      ((if hs = true then do let t ← Reader.allowance; let r ← shortcuts t none []; f' r
        else do let r ← pure (none, []); f' r) c₁.withReturns) := by
  apply Twin.ite Iff.rfl
  · intro _
    apply (allowance_twin h₁).bind
    rintro _ _ c₂ h₂ ⟨rfl, rfl, rfl⟩
    have hloop := (progress {} fun _ => .ok []).shortcuts (none, [])
    have htwin : Twin c S (fun r r' _ => r = r') _ _ :=
      hloop.twin (I := Eq) (fun r r' c₃ h₃ hr => hr ▸ shortcutTurn_twin r h₃) h₂ rfl
    apply htwin.bind
    rintro r _ c₃ h₃ rfl
    exact hf r c₃ h₃
  · intro _
    exact hf _ c₁ h₁

/-- An element is read alike, unless a line break in one of its dictionaries is refused. -/
theorem element_twin (hcr : '\r' ∉ c.text) (h₁ : c.Moves c₁) :
    Twin c (Refused c.text) (fun e e' _ => e = e') (element s block c₁)
      (element s block c₁.withReturns) := by
  apply (opening_twin h₁).bind
  rintro ⟨tag, hs⟩ _ c₂ h₂ rfl
  apply shortcutsIf_twin hs h₂
  rintro ⟨id, classes⟩ c₃ h₃
  apply (allowance_twin h₃).bind
  rintro _ _ c₄ h₄ ⟨rfl, rfl, rfl⟩
  have hloop := (progress { settings := s } block).dictionaries []
  have htwin : Twin c (Refused c.text) (fun d d' _ => d = d') _ _ :=
    hloop.twin (I := Eq) (fun d d' c₅ h₅ hd => hd ▸ dictionaryTurn_twin hcr d h₅) h₄ rfl
  apply htwin.bind
  rintro attributes _ c₅ h₅ rfl
  apply (accept_twin (by decide) (by decide) h₅).bind
  rintro _ outer c₆ h₆ ⟨rfl, -⟩
  apply (accept_twin (by decide) (by decide) h₆).bind
  rintro _ inner c₇ h₇ ⟨rfl, -⟩
  apply (accept_twin (by decide) (by decide) h₇).bind
  rintro _ slash c₈ h₈ ⟨rfl, -⟩
  apply (accept_twin (by decide) (by decide) h₈).bind
  rintro _ equals c₉ h₉ ⟨rfl, -⟩
  apply (line?_twin h₉).bind
  intro inline inline' c₁₀ h₁₀ hinline
  have htrim : inline'.map Text.trim = inline.map Text.trim := by
    cases hinline with
    | none => rfl
    | some hl =>
      rcases hl with rfl | rfl
      · rfl
      · exact congrArg some (Text.trim_append_blank (List.all_eq_true.mp (by decide)) _)
  cases build tag id classes attributes with
  | error e => exact twin_throw
  | ok e => exact twin_pure h₁₀ (by simp only [htrim])

end Element

end Haml
