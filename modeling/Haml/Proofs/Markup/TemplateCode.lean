import Haml.Proofs.Compile.Spellings
import Haml.Proofs.Escape.Delimiters
import Haml.Proofs.Markup.Attributes
import Haml.Proofs.Markup.Spacing

/-!
Code of the template language in attribute values: an expression, a tag or an inline variable with
text around it. The value is escaped when it is read, its quotes are escaped when it is rendered,
and then its variables are replaced. Main statement: a tag comes out of this as it was written, an
expression just if it has no quote that wraps values, and a variable just if moreover nothing in it
was escaped.
-/
namespace Haml

/-- A quoted text as it is taken into the dictionary. -/
def Settings.taken (s : Settings) (t : Text) : Text := if s.escapeValues then Escape.html t else t

/-- The kinds of code that a value may have in it. -/
inductive Code where
  | expression
  | tag
  | inline
  deriving DecidableEq, Repr

namespace Code

/-- The code with `t` in it as it is written in a template. -/
def written : Code → Text → Text
  | expression, t => '{' :: '{' :: ' ' :: (t ++ [' ', '}', '}'])
  | tag, t => '{' :: '%' :: ' ' :: (t ++ [' ', '%', '}'])
  | inline, t => '#' :: '{' :: (t ++ ['}'])

/-- The code with `t` in it as the template language has it. -/
def shown : Code → Text → Text
  | tag, t => tag.written t
  | _, t => expression.written t

def taken (s : Settings) : Code → Text → Text
  | inline, t => s.taken t
  | _, t => t

def inside (s : Settings) (q : Char) : Code → Text → Text
  | tag, t => t
  | code, t => Text.guard q (code.taken s t)

def value (s : Settings) (q : Char) (code : Code) (a t b : Text) : Text :=
  Text.guard q (s.taken a) ++ code.shown (code.inside s q t) ++ Text.guard q (s.taken b)

def Lacks (cs : List Char) (t : Text) : Prop := ∀ x ∈ t, x ∉ cs

instance (cs : List Char) : DecidablePred (Lacks cs) := fun t => List.decidableBAll (· ∉ cs) t

/-- The text has nothing in it that is changed inside the code. -/
def Survives (s : Settings) (q : Char) : Code → Text → Prop
  | tag, _ => True
  | expression, t => q ∉ t
  | inline, t => q ∉ t ∧ (s.escapeValues = true → Lacks Escape.specials t)

/-- The characters that code is made with. -/
def reserved : List Char := ['{', '}', '%', '#', '\\']

/-- The texts around a piece of code, and a trimmed text on one line inside it. -/
structure Embeds (a t b : Text) : Prop where
  before : Lacks reserved a
  after : Lacks reserved b
  ne_nil : t ≠ []
  trimmed : Text.trim t = t
  line : Lacks ('\n' :: reserved) t

end Code

/-! ## Reading a value -/

namespace Settings

variable {s : Settings} {t : Text} {x : Char}

theorem mem_taken (h : '{' ∉ t) (hx : x ∈ s.taken t) : x ∈ t ∨ x ∈ Escape.letters := by
  unfold taken at hx
  split at hx
  · rw [Escape.html_eq_flatMap_entity h] at hx
    obtain ⟨y, hy, hmem⟩ := List.mem_flatMap.mp hx
    rcases (Escape.entity_ends y).1 x hmem with rfl | hletter
    · exact .inl hy
    · exact .inr hletter
  · exact .inl hx

theorem not_mem_taken (h : '{' ∉ t) (hx : x ∉ t) (hletter : x ∉ Escape.letters) : x ∉ s.taken t :=
  fun hmem => (mem_taken h hmem).elim hx hletter

theorem getLast?_taken (h : '{' ∉ t) (hx : (s.taken t).getLast? = some x) :
    t.getLast? = some x ∨ x = ';' := by
  unfold taken at hx
  split at hx
  · rw [Escape.html_eq_flatMap_entity h] at hx
    rcases List.eq_nil_or_concat t with rfl | ⟨u, y, rfl⟩
    · cases hx
    · have hne : Escape.entity y ≠ [] :=
        List.ne_nil_of_length_pos (Escape.length_entity y).1
      rw [List.concat_eq_append, List.flatMap_append, List.flatMap_singleton,
        List.getLast?_append_of_ne_nil _ hne] at hx
      rw [List.concat_eq_append, List.getLast?_concat]
      rcases (Escape.entity_ends y).2 with hend | hend
      · exact .inl (hend ▸ hx)
      · rw [hend] at hx
        exact .inr (Option.some.inj hx).symm
  · exact .inl hx

theorem head?_taken (hx : (s.taken t).head? = some x) : t.head? = some x ∨ x = '&' := by
  unfold taken at hx
  split at hx
  · cases t with
    | nil => cases hx
    | cons y t =>
      rcases Escape.head?_htmlFrom .markup y t with hhead | hhead
      · exact .inl (hhead.symm.trans hx)
      · exact .inr (Option.some.inj (hhead.symm.trans hx)).symm
  · exact .inl hx

end Settings

namespace Code

variable {s : Settings} {q x : Char} {a t b : Text}

/-- A text inside the code is shown as it is just if nothing in it is changed. -/
theorem inside_eq_iff (hq : Reader.isQuote q = true) (h : '{' ∉ t) (code : Code) :
    code.inside s q t = t ↔ code.Survives s q t := by
  cases code with
  | tag => exact ⟨fun _ => trivial, fun _ => rfl⟩
  | expression => exact Text.guard_eq_self_iff
  | inline =>
    cases he : s.escapeValues with
    | false =>
      have htaken : s.taken t = t := by simp [Settings.taken, he]
      simp [inside, taken, htaken, Survives, he, Text.guard_eq_self_iff]
    | true =>
      have htaken : s.taken t = t.flatMap Escape.entity := by
        rw [Settings.taken, he, if_pos rfl, Escape.html_eq_flatMap_entity h]
      have hquote : q ∈ Escape.specials := by
        rcases Reader.eq_of_isQuote hq with rfl | rfl <;> decide
      simp only [inside, taken, htaken, Survives, he, true_implies]
      constructor
      · intro heq
        have hlength := congrArg List.length heq
        rw [Text.length_guard] at hlength
        obtain ⟨hle, hlt⟩ := Escape.length_flatMap_entity t
        have hnone : Lacks Escape.specials t := fun x hx hmem => by
          have := hlt ⟨x, hx, hmem⟩
          omega
        exact ⟨fun hmem => hnone q hmem hquote, hnone⟩
      · rintro ⟨hmem, hnone⟩
        rw [Escape.flatMap_entity_eq hnone, Text.guard_of_not_mem hmem]

/-- The text around the code and the code are read on their own. -/
theorem taken_embedded (h : Embeds a t b) (code : Code) :
    s.taken (a ++ code.written t ++ b) =
      s.taken a ++ code.written (code.taken s t) ++ s.taken b := by
  have ha : '{' ∉ a := fun hmem => h.before _ hmem (by decide)
  have ht : ∀ {x}, x ∈ reserved → x ∉ t := fun hx hmem => h.line _ hmem (by simp [hx])
  cases he : s.escapeValues with
  | false => cases code <;> simp [Settings.taken, taken, he]
  | true =>
    simp only [Settings.taken, he, if_true]
    rw [List.append_assoc, List.append_assoc, Escape.html_append ha]
    congr 1
    cases code with
    | expression =>
      have hinner : Escape.Inner '}' (' ' :: t ++ [' ']) :=
        Escape.inner_of_not_mem (by simp [ht (x := '{') (by decide)])
          (by simp [ht (x := '}') (by decide)]) (by decide)
      have hregion := Escape.html_region (c := '{') (d := '{') rfl .expression hinner b
      simpa [written, taken] using hregion
    | tag =>
      have hinner : Escape.Inner '%' (' ' :: t ++ [' ']) :=
        Escape.inner_of_not_mem (by simp [ht (x := '{') (by decide)])
          (by simp [ht (x := '%') (by decide)]) (by decide)
      have hregion := Escape.html_region (c := '{') (d := '%') rfl .tag hinner b
      simpa [written, taken] using hregion
    | inline =>
      have hmark : Escape.html ('#' :: '{' :: (t ++ '}' :: b)) =
          '#' :: Escape.html ('{' :: (t ++ '}' :: b)) :=
        Escape.html_append (t := ['#']) (by decide) _
      have hbody := Escape.html_append (ht (x := '{') (by decide)) ('}' :: b)
      have hclose : Escape.html ('}' :: b) = '}' :: Escape.html b :=
        Escape.html_append (t := ['}']) (by decide) b
      have hbrace : Escape.html ('{' :: (t ++ '}' :: b)) = '{' :: Escape.html (t ++ '}' :: b) := by
        refine Escape.html_brace fun x hx => ?_
        rw [List.head?_append_of_ne_nil _ h.ne_nil] at hx
        have hmem := List.mem_of_head? hx
        constructor <;> rintro rfl <;> exact ht (by decide) hmem
      calc Escape.html (inline.written t ++ b)
          = Escape.html ('#' :: '{' :: (t ++ '}' :: b)) := by simp [written]
        _ = '#' :: '{' :: (Escape.html t ++ '}' :: Escape.html b) := by
            rw [hmark, hbrace, hbody, hclose]
        _ = inline.written (Escape.html t) ++ Escape.html b := by simp [written]
        _ = inline.written (inline.taken s t) ++ Escape.html b := by
            simp [taken, Settings.taken, he]

/-- A tag is taken through as it is. -/
theorem quotesFrom_tag_written (hs : s.Wraps q) (h : '{' ∉ t) (hclose : '%' ∉ t) (u : Text) :
    Escape.quotesFrom q false (tag.written t ++ u) =
      tag.written t ++ Escape.quotesFrom q false u := by
  have hbody := Escape.quotesFrom_tag (q := q) (t := ' ' :: t ++ [' ']) (by simp [h])
    (by simp [hclose]) ('%' :: '}' :: u)
  have hpercent : '%' ≠ q := (hs.ne rfl).symm
  have hbrace : '}' ≠ q := (hs.ne rfl).symm
  have hend : Escape.quotesFrom q true ('%' :: '}' :: u) =
      '%' :: '}' :: Escape.quotesFrom q false u := by
    simp [Escape.quotesFrom, Escape.insideTag, hpercent, hbrace]
  calc Escape.quotesFrom q false (tag.written t ++ u)
      = '{' :: '%' :: Escape.quotesFrom q true (' ' :: t ++ [' '] ++ '%' :: '}' :: u) := by
        simp [written, Escape.quotesFrom, Escape.insideTag]
    _ = tag.written t ++ Escape.quotesFrom q false u := by
        rw [hbody, hend]
        simp [written]

theorem guard_written (hs : s.Wraps q) (t : Text) (code : Code) :
    Text.guard q (code.written t) = code.written (Text.guard q t) := by
  have hplain : ∀ u : Text, u.any Reader.isQuote = false → Text.guard q u = u := fun u hu =>
    Text.guard_of_not_mem fun hmem => by simpa [hs.quote] using List.any_eq_false.mp hu q hmem
  have haround : ∀ u v : Text, (u ++ v).any Reader.isQuote = false →
      Text.guard q (u ++ t ++ v) = u ++ Text.guard q t ++ v := fun u v huv => by
    rw [List.any_append, Bool.or_eq_false_iff] at huv
    rw [Text.guard_append, Text.guard_append, hplain u huv.1, hplain v huv.2]
  cases code with
  | expression => simpa [written] using haround ['{', '{', ' '] [' ', '}', '}'] (by decide)
  | tag => simpa [written] using haround ['{', '%', ' '] [' ', '%', '}'] (by decide)
  | inline => simpa [written] using haround ['#', '{'] ['}'] (by decide)

/-- The quotes around the code are escaped, and those inside it unless it is a tag. -/
theorem escapeText_embedded (hs : s.Wraps q) (ha : '{' ∉ a) (ht : '{' ∉ t ∧ '%' ∉ t) (hb : '%' ∉ b)
    (code : Code) :
    Element.escapeText s (a ++ code.written t ++ b) = Text.guard q a ++
      code.written (if code = tag then t else Text.guard q t) ++ Text.guard q b := by
  have hquotes : ∀ u, Element.escapeText s u = Escape.quotesFrom q false u := fun u => by
    rw [Element.escapeText, hs.escapes, if_pos rfl, hs.wrapper]
    rfl
  have hcalm : ∀ {u : Text}, '%' ∉ u → Escape.quotesFrom q false u = Text.guard q u := fun hu =>
    Escape.quotesFrom_eq_guard fun hin => hu (hin.subset (by simp))
  have hbefore : ∀ v, v <:+ a → v ≠ [] → ¬ ['{', '%'] <+: v ++ (code.written t ++ b) := by
    intro v hv hne hopen
    obtain ⟨x, v, rfl⟩ := List.exists_cons_of_ne_nil hne
    obtain rfl := (List.cons_prefix_cons.mp hopen).1
    exact ha (hv.subset (by simp))
  rw [hquotes, List.append_assoc, Escape.quotesFrom_append hbefore, List.append_assoc]
  congr 1
  by_cases hcode : code = tag
  · rw [hcode, quotesFrom_tag_written hs ht.1 ht.2, hcalm hb, if_pos rfl]
  · have hwritten : '%' ∉ code.written t := by
      cases code with
      | tag => exact absurd rfl hcode
      | expression => simp [written, ht.2]
      | inline => simp [written, ht.2]
    rw [hcalm (by simp [hwritten, hb]), Text.guard_append, guard_written hs, if_neg hcode]

/-- A text that makes a variable if it stands in one. -/
structure Body (t : Text) : Prop where
  ne_nil : t ≠ []
  opening : '{' ∉ t
  stops : ∀ x ∈ t, x ≠ '}' ∧ x ≠ '\n'
  first : ∀ x ∈ t.head?, Text.isWhite x = false
  last : ∀ x ∈ t.getLast?, Text.isWhite x = false

theorem Body.taken (h : Body t) (s : Settings) : Body (s.taken t) where
  ne_nil hnil := by
    unfold Settings.taken at hnil
    split at hnil
    · have hle := (Escape.length_flatMap_entity t).1
      rw [← Escape.html_eq_flatMap_entity h.opening, hnil] at hle
      exact h.ne_nil (List.length_eq_zero_iff.mp (Nat.le_zero.mp hle))
    · exact h.ne_nil hnil
  opening := Settings.not_mem_taken h.opening h.opening (by decide)
  stops x hx := by
    rcases Settings.mem_taken h.opening hx with hx | hx
    · exact h.stops x hx
    · constructor <;> rintro rfl <;> revert hx <;> decide
  first x hx := by
    rcases Settings.head?_taken hx with hx | rfl
    · exact h.first x hx
    · decide
  last x hx := by
    rcases Settings.getLast?_taken h.opening hx with hx | rfl
    · exact h.last x hx
    · decide

theorem Body.guard (h : Body t) (q : Char) : Body (Text.guard q t) where
  ne_nil hnil := by
    have hlength := Text.length_guard q t
    rw [hnil, List.length_nil] at hlength
    exact h.ne_nil (List.length_eq_zero_iff.mp (by omega))
  opening hmem := h.opening ((Text.mem_guard (by decide)).mp hmem)
  stops x hx := by
    by_cases hslash : x = '\\'
    · rw [hslash]
      decide
    · exact h.stops x ((Text.mem_guard hslash).mp hx)
  first x hx := by
    obtain ⟨y, u, rfl⟩ := List.exists_cons_of_ne_nil h.ne_nil
    by_cases hy : y = q
    · rw [hy, Text.guard_cons_self] at hx
      obtain rfl := Option.some.inj hx
      decide
    · rw [Text.guard_cons hy] at hx
      exact h.first x hx
  last x hx := h.last x (by rwa [Text.getLast?_guard] at hx)

theorem not_white (h : Text.isBlank x = false) : Text.isWhite x = false := by
  rw [Text.isBlank, Bool.or_eq_false_iff] at h
  exact h.1

theorem Embeds.body (h : Embeds a t b) : Body t where
  ne_nil := h.ne_nil
  opening hmem := h.line _ hmem (by decide)
  stops x hx := by constructor <;> rintro rfl <;> exact h.line _ hx (by decide)
  first x hx := by
    obtain ⟨u, rfl⟩ := List.head?_eq_some_iff.mp hx
    exact not_white (Text.isBlank_of_trim h.trimmed)
  last x hx := by
    have hend := Text.endsBlank_trimRight (Text.trimLeft t)
    rw [show Text.trimRight (Text.trimLeft t) = t from h.trimmed, Text.endsBlank, hx] at hend
    exact not_white hend

theorem body_inside (h : Body t) (s : Settings) (q : Char) (code : Code) :
    Body (code.inside s q t) := by
  cases code with
  | tag => exact h
  | expression => exact h.guard q
  | inline => exact (h.taken s).guard q

/-- A variable becomes an expression, and other code stays as it is. -/
theorem replace_embedded (ha : '{' ∉ a) (hlast : ∀ x ∈ a.getLast?, x ≠ '#' ∧ x ≠ '\\') (ht : Body t)
    (hb : '{' ∉ b) (code : Code) :
    InlineVariable.replace false (a ++ code.written t ++ b) = a ++ code.shown t ++ b := by
  have hmark : ∀ x ∈ a.getLast?, InlineVariable.isMark false x = false ∧ x ≠ '\\' := fun x hx =>
    ⟨by simp [InlineVariable.isMark, (hlast x hx).1], (hlast x hx).2⟩
  have hbrace : InlineVariable.isMark false '{' = false := rfl
  have hplain : ∀ {u : Text}, '{' ∉ u → InlineVariable.replace false u = u := fun hu =>
    InlineVariable.replace_eq (InlineVariable.unmarked_of_not_mem hu)
  rw [List.append_assoc, InlineVariable.replace_append_left ha hmark, List.append_assoc]
  congr 1
  cases code with
  | expression =>
    have hrest : '{' ∉ ' ' :: (t ++ [' ', '}', '}']) ++ b := by simp [ht.opening, hb]
    change InlineVariable.replace false (expression.written t ++ b) = expression.written t ++ b
    rw [written, List.cons_append, List.cons_append, InlineVariable.replace_step hbrace (by decide),
      InlineVariable.replace_step hbrace (by decide), hplain hrest]
  | tag =>
    have hrest : '{' ∉ '%' :: ' ' :: (t ++ [' ', '%', '}']) ++ b := by simp [ht.opening, hb]
    change InlineVariable.replace false (tag.written t ++ b) = tag.written t ++ b
    rw [written, List.cons_append, InlineVariable.replace_step hbrace (by decide),
      hplain hrest]
  | inline =>
    have hnone : InlineVariable.White [] := List.forall_mem_nil _
    have hstart := InlineVariable.start?_eq_some (b := false) (m := '#') rfl ht.ne_nil ht.stops
      ht.first ht.last hnone hnone b
    rw [List.nil_append, List.append_nil] at hstart
    have hreplace := InlineVariable.replace_variable hstart ht.opening hb
    simpa [shown, written] using hreplace

/-- The text around code has neither braces nor percent signs when it is read. -/
theorem taken_unreserved (s : Settings) {u : Text} (h : Lacks reserved u) :
    '{' ∉ s.taken u ∧ '%' ∉ s.taken u := by
  have hreserved : ∀ {x}, x ∈ reserved → x ∉ u := fun hx hmem => h _ hmem hx
  have hbrace : '{' ∉ u := hreserved (by decide)
  exact ⟨Settings.not_mem_taken hbrace hbrace (by decide),
    Settings.not_mem_taken hbrace (hreserved (by decide)) (by decide)⟩

theorem brace_not_mem_around (s : Settings) (q : Char) {u : Text} (h : Lacks reserved u) :
    '{' ∉ Text.guard q (s.taken u) := fun hmem =>
  (taken_unreserved s h).1 ((Text.mem_guard (by decide)).mp hmem)

/-- A value is read, its quotes are escaped and its variables are replaced. -/
theorem replace_value (hs : s.Wraps q) (h : Embeds a t b) (code : Code) :
    InlineVariable.replace false (Element.escapeText s (s.taken (a ++ code.written t ++ b))) =
      code.value s q a t b := by
  -- what is read around the code has neither braces nor percent signs and does not end in a mark
  have hlast : ∀ x ∈ (Text.guard q (s.taken a)).getLast?, x ≠ '#' ∧ x ≠ '\\' := by
    intro x hx
    rw [Text.getLast?_guard] at hx
    rcases Settings.getLast?_taken (fun hmem => h.before _ hmem (by decide)) hx with hx | rfl
    · have hmem := h.before x (List.mem_of_getLast? hx)
      constructor <;> rintro rfl <;> exact hmem (by decide)
    · decide
  have htaken : '{' ∉ code.taken s t ∧ '%' ∉ code.taken s t := by
    have ht : Lacks reserved t := fun x hx hmem => h.line x hx (by simp [hmem])
    cases code with
    | inline => exact taken_unreserved s ht
    | _ => exact ⟨fun hmem => ht _ hmem (by decide), fun hmem => ht _ hmem (by decide)⟩
  have hinside : (if code = tag then code.taken s t else Text.guard q (code.taken s t)) =
      code.inside s q t := by
    cases code <;> rfl
  rw [taken_embedded h, escapeText_embedded hs (taken_unreserved s h.before).1 htaken
    (taken_unreserved s h.after).2, hinside, replace_embedded (brace_not_mem_around s q h.before)
      hlast (body_inside h.body s q code) (brace_not_mem_around s q h.after), value]

/-! ## Code that survives -/

/-- The first place of a character cuts a text in one way only. -/
theorem cut_unique {c : Char} {u v u' v' : Text} (hu : c ∉ u) (hv : c ∉ v)
    (h : u ++ c :: u' = v ++ c :: v') : u = v ∧ u' = v' := by
  induction u generalizing v with
  | nil =>
    cases v with
    | nil => exact ⟨rfl, (List.cons.inj h).2⟩
    | cons y v => exact absurd (List.cons.inj h).1 (List.ne_of_not_mem_cons hv)
  | cons x u ih =>
    cases v with
    | nil => exact absurd (List.cons.inj h).1.symm (List.ne_of_not_mem_cons hu)
    | cons y v =>
      obtain ⟨rfl, htail⟩ := List.cons.inj h
      obtain ⟨rfl, rfl⟩ :=
        ih (List.not_mem_of_not_mem_cons hu) (List.not_mem_of_not_mem_cons hv) htail
      exact ⟨rfl, rfl⟩

/-- An expression is found in a text with one expression in it just if it is that one. -/
theorem expression_infix_iff {u : Text} (ha : '{' ∉ a) (hb : '{' ∉ b) (ht : Body t) (hu : Body u) :
    expression.written t <:+: a ++ expression.written u ++ b ↔ u = t := by
  have hclose : ∀ {v : Text}, Body v → '}' ∉ v ++ [' '] := fun hv hmem => by
    rcases List.mem_append.mp hmem with hmem | hmem
    · exact (hv.stops _ hmem).1 rfl
    · exact absurd hmem (by decide)
  constructor
  · rintro ⟨front, back, heq⟩
    have hcount : ∀ {v : Text}, '{' ∉ v → v.count '{' = 0 := List.count_eq_zero.mpr
    have htwo : ∀ {v : Text}, Body v → (expression.written v).count '{' = 2 := fun hv => by
      simp [written, hcount hv.opening]
    have hbraces := congrArg (List.count '{') heq
    simp only [List.count_append, htwo ht, htwo hu, hcount ha, hcount hb] at hbraces
    have hfront : '{' ∉ front := List.count_eq_zero.mp (by omega)
    -- both expressions begin at the first brace and end at the next closing one
    have heq' : front ++ '{' :: '{' :: ' ' :: (t ++ [' '] ++ '}' :: '}' :: back) =
        a ++ '{' :: '{' :: ' ' :: (u ++ [' '] ++ '}' :: '}' :: b) := by
      simpa [written] using heq
    obtain ⟨-, htail⟩ := cut_unique hfront ha heq'
    obtain ⟨htu, -⟩ := cut_unique (hclose ht) (hclose hu) (by simpa using htail)
    exact (List.append_cancel_right htu).symm
  · rintro rfl
    exact ⟨a, b, rfl⟩

/-- The code is found in what is shown of the value just if nothing in it is changed. -/
theorem shown_infix_iff (hs : s.Wraps q) (h : Embeds a t b) (code : Code) :
    code.shown t <:+: code.value s q a t b ↔ code.Survives s q t := by
  rw [← inside_eq_iff hs.quote h.body.opening code]
  have hiff := expression_infix_iff (brace_not_mem_around s q h.before)
    (brace_not_mem_around s q h.after) h.body (body_inside h.body s q code)
  cases code with
  | tag => exact ⟨fun _ => rfl, fun _ => ⟨_, _, rfl⟩⟩
  | expression => exact hiff
  | inline => exact hiff

end Code

/-! ## Elements with code in an attribute -/

open Attribute (Shown)

namespace Element.Spelling

variable {s : Settings}

theorem exists_entry {e : Spelling} {a : Text × Value} (h : a ∈ e.attributes s) :
    ∃ entry : Attribute.Entry, a = (entry.key, entry.assignment.value s) := by
  obtain ⟨r, -, hmem⟩ := List.mem_flatMap.mp (Dictionary.mem_of_mem_merged h)
  obtain ⟨entry, -, rfl⟩ := List.mem_map.mp hmem
  exact ⟨entry, rfl⟩

theorem writable {e : Spelling} (h : ∀ a ∈ e.attributes s, ∀ items, a.2 = .many items →
    ∀ v ∈ items, ∃ t, v = .text t) : (e.element s).Writable where
  names a ha := by
    obtain ⟨entry, rfl⟩ := exists_entry ha
    exact entry.ne_nil
  lists := h
  classes c hc := by
    obtain ⟨t, -, rfl⟩ := List.mem_map.mp hc
    exact ⟨t, rfl⟩

theorem braces_not_mem {e : Spelling} {a : Text × Value} (h : a ∈ e.attributes s) :
    '{' ∉ a.1 ∧ '}' ∉ a.1 := by
  obtain ⟨entry, rfl⟩ := exists_entry h
  constructor <;> intro hmem <;> exact absurd (entry.letters _ hmem) (by decide)

end Element.Spelling

namespace Code

/-- An element with code in the value of an attribute is compiled, and the attribute stands in its
markup with the code in it. The code is as it was written just if nothing in it is changed. -/
theorem survives_iff {p : Profile} {q : Char} (hs : p.settings.Wraps q)
    (hequals : p.inlineEquals = false) (houtline : p.settings.outline = false) {a t b : Text}
    (h : Embeds a t b) (code : Code) (e : Element.Spelling) {k : Text} (hid : k ≠ ['i', 'd'])
    (hclass : k ≠ "class".toList)
    (hvalue : (k, .one (.text (p.settings.taken (a ++ code.written t ++ b)))) ∈
      e.attributes p.settings)
    (hlists : ∀ c ∈ e.attributes p.settings, ∀ items, c.2 = .many items →
      ∀ v ∈ items, ∃ u, v = .text u)
    (hapart : ((e.element p.settings).shown p.settings
      (Element.renderedValue p.settings)).Pairwise (Shown.Apart false)) :
    ∃ html, compile p e.text = .ok html ∧
      ' ' :: k ++ '=' :: q :: (code.value p.settings q a t b ++ [q]) <:+: html ∧
      (code.Survives p.settings q t → code.shown t <:+: html) ∧
      (code.shown t <:+: code.value p.settings q a t b ↔ code.Survives p.settings q t) := by
  have hwritable := e.writable hlists
  have hrendered := Element.renderAttributes_eq hs.wrapper hwritable
  obtain ⟨html, hcompile, hhtml⟩ := e.compile_text houtline ⟨_, hrendered⟩
  have htext := Element.attributesText_eq hs hwritable
    (fun c hc => Element.Spelling.braces_not_mem hc) (hequals ▸ hapart)
  rw [hequals] at htext
  rw [htext] at hhtml
  have hshown : ⟨k, some (Element.escapeText p.settings (p.settings.taken
      (a ++ code.written t ++ b)))⟩ ∈ (e.element p.settings).shown p.settings
        (Element.renderedValue p.settings) := by
    refine List.mem_append_left _ (List.mem_append_left _ (List.mem_filterMap.mpr ⟨_, hvalue, ?_⟩))
    rw [Element.shownEntry, if_neg fun hname => hname.elim hid hclass]
    rfl
  have hattribute : ' ' :: k ++ '=' :: q :: (code.value p.settings q a t b ++ [q]) <:+: html := by
    have hrow := List.infix_of_mem_flatten (List.mem_map_of_mem
      (f := fun c => ' ' :: Shown.text q c) (List.mem_map_of_mem
        (f := Shown.map (InlineVariable.replace false)) hshown))
    rw [← replace_value hs h code]
    exact hrow.trans hhtml
  have hiff := shown_infix_iff hs h code
  refine ⟨html, hcompile, hattribute, fun hsurvives => ?_, hiff⟩
  have hinside : code.value p.settings q a t b <:+:
      ' ' :: k ++ '=' :: q :: (code.value p.settings q a t b ++ [q]) :=
    ⟨' ' :: k ++ ['=', q], [q], by simp⟩
  exact (hiff.mpr hsurvives).trans (hinside.trans hattribute)

def quoted (t : Text) (h : t.all (fun x => x.toNat != 0) = true ∧ t.getLast? ≠ some '\\') :
    Attribute.Atom :=
  .string '"' t (by decide) (fun x hx => bne_iff_ne.mp (List.all_eq_true.mp h.1 x hx)) h.2

/-- An element with a filter in its title, `%p{title: "<i> {{ x|y:'z' }}"}`. -/
def titled : Element.Spelling where
  tag := .plain (.ofText ['p'] (by decide))
  shortcuts := []
  started := by simp
  rows := [{
    writing := .colon
    entries := [(Element.Name.ofText "title".toList (by decide)).entry
      (.one (quoted "<i> \x7b\x7b x|y:'z' \x7d\x7d".toList (by decide)))]
    distinct := by decide
    names := by
      intro e he hkey
      rw [List.mem_singleton.mp he] at hkey
      exact absurd hkey (by decide)
    text := "\x7btitle: \"<i> \x7b\x7b x|y:'z' \x7d\x7d\"\x7d".toList
    spelled := .brackets Attribute.blanks_nil (.last (e := Element.Name.entry _ _)
      (.given Attribute.blanks_nil Element.blanks_space (.one _)) Attribute.blanks_nil) }]
  outer := false
  inner := false
  slash := false
  equals := false
  inline := []
  unbroken := by decide

def escaping : Profile := { settings := { wrapper := ['"'], escapeValues := true } }

theorem survives_iff_titled :
    escaping.settings.Wraps '"' ∧ Embeds "<i> ".toList "x|y:'z'".toList [] ∧
    titled.text = "%p\x7btitle: \"<i> \x7b\x7b x|y:'z' \x7d\x7d\"\x7d \n".toList ∧
    compile escaping titled.text =
      .ok "<p title=\"&lt;i&gt; \x7b\x7b x|y:'z' \x7d\x7d\"></p>\n".toList ∧
    expression.Survives escaping.settings '"' "x|y:'z'".toList ∧
    expression.shown "x|y:'z'".toList <:+:
      "<p title=\"&lt;i&gt; \x7b\x7b x|y:'z' \x7d\x7d\"></p>\n".toList := by
  have hwraps : escaping.settings.Wraps '"' := ⟨by decide, rfl, rfl⟩
  have hembeds : Embeds "<i> ".toList "x|y:'z'".toList [] :=
    ⟨by decide, by decide, by decide, by decide, by decide⟩
  have hcompile : compile escaping titled.text =
      .ok "<p title=\"&lt;i&gt; \x7b\x7b x|y:'z' \x7d\x7d\"></p>\n".toList := by decide +kernel
  have hsurvives : expression.Survives escaping.settings '"' "x|y:'z'".toList := by
    unfold Survives
    decide
  have hlists : ∀ c ∈ titled.attributes escaping.settings, ∀ items, c.2 = .many items →
      ∀ v ∈ items, ∃ u, v = .text u := by
    have hone : titled.attributes escaping.settings =
        [("title".toList, .one (.text "&lt;i&gt; \x7b\x7b x|y:'z' \x7d\x7d".toList))] := by decide
    intro c hc items hitems
    rw [hone] at hc
    obtain rfl := List.mem_singleton.mp hc
    cases hitems
  obtain ⟨html, hhtml, -, hshown, -⟩ := survives_iff hwraps rfl rfl hembeds expression titled
    (k := "title".toList) (by decide) (by decide) (by decide) hlists (by decide)
  obtain rfl := Except.ok.inj (hcompile.symm.trans hhtml)
  exact ⟨hwraps, hembeds, by decide, hcompile, hsurvives, hshown hsurvives⟩

/-- Code that is changed: an expression with the quote that wraps the value, and a variable with a
character that is escaped. -/
theorem code_changed :
    compile {} "%p\x7ba: \"\x7b\x7b b|default:'x' \x7d\x7d\"\x7d".toList =
      .ok "<p a='\x7b\x7b b|default:\\'x\\' \x7d\x7d'></p>\n".toList ∧
    compile { settings := { escapeValues := true } } "%p\x7ba: \"#\x7bb < c\x7d\"\x7d".toList =
      .ok "<p a='\x7b\x7b b &lt; c \x7d\x7d'></p>\n".toList := by
  decide +kernel

end Code

end Haml
