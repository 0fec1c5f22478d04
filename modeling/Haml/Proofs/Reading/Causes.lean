import Haml.Proofs.Dictionary
import Haml.Proofs.Reading.Mishaps
import Haml.Proofs.Reading.Positions

/-!
Why a template fails although no fault is explained. There are few causes, each of which can be seen
in the text: `Cause` lists them. The readers of elements and nodes fail for one of these causes, or
in a block value, and what they read can be traced back to the text.
-/
namespace Haml

open Cursor (spot)

/-- The bracket that opens a dictionary stands at the place `i` of a text. -/
def BracketAt (t : Text) (i : Nat) : Prop :=
  (t.drop i).head? = some '{' ∨ (t.drop i).head? = some '('

/-- An entry that has no text to be written: a list with an item that is not a text, or a single
class that is not one. -/
def Unwritable (entry : Text × Value) : Prop :=
  match entry.2 with
  | .many items => ∃ v ∈ items, v.text? = none
  | .one v => entry.1 = "class".toList ∧ v.text? = none

/-- The line is blank, or it is indented by more than `depth`. -/
def Beyond (depth : Nat) (l : Text) : Prop :=
  (∀ x ∈ l, Text.isBlank x = true) ∨ depth < (l.takeWhile Text.isBlank).length

/-- Why the text `t` fails, apart from faults that are explained and from block values. -/
inductive Cause (p : Profile) (t : Text) : Failure → Prop
  /-- The last line is a lone point or colon. -/
  | lone {b : Text} {mark : Char} (hb : ∀ x ∈ b, Text.isIndent x = true)
      (hmark : mark = '.' ∨ mark = ':') (hlast : t.lines.getLast? = some (b ++ [mark])) :
      Cause p t .bareMark
  /-- A filter goes on up to the last line, and that is made of blanks. -/
  | filter {before body : List Text} {b name last : Text} (hb : ∀ x ∈ b, Text.isIndent x = true)
      (hlines : t.lines = before ++ (b ++ ':' :: name) :: (body ++ [last]))
      (hbody : ∀ l ∈ body, Beyond b.length l) (hne : last ≠ [])
      (hblank : ∀ x ∈ last, Text.isBlank x = true) : Cause p t .pastEnd
  /-- A dictionary is not closed: its reading comes to where only blanks are left. -/
  | unclosed {i : Nat} {c : Cursor} (hi : BracketAt t i)
      (hread : Attribute.dictionary p.settings (compile p) (spot t i) = .error .pastEnd c)
      (hline : '\n' ∉ c.rest) (hblank : ∀ x ∈ c.rest, Text.isBlank x = true) : Cause p t .pastEnd
  /-- A dictionary has a quoted literal that cannot be evaluated. -/
  | literal {i : Nat} {c : Cursor} {q : Char} {body : Text} (hi : BracketAt t i)
      (hread : Attribute.dictionary p.settings (compile p) (spot t i) = .error .badLiteral c)
      (hq : Reader.isQuote q = true) (hin : (q :: body ++ [q]) <:+: t)
      (hbad : Text.literal? q (body ++ [q]) = none) : Cause p t .badLiteral
  /-- A dictionary has a block value that starts with a blank line. -/
  | margin {i : Nat} {c : Cursor} (hi : BracketAt t i)
      (hread : Attribute.dictionary p.settings (compile p) (spot t i) = .error .noMargin c)
      (hlines : Gapped t) : Cause p t .noMargin
  /-- A dictionary has an entry that cannot be written. -/
  | value {i : Nat} {d : Attributes} {c : Cursor} {entry : Text × Value} (hi : BracketAt t i)
      (hread : Attribute.dictionary p.settings (compile p) (spot t i) = .ok d c)
      (hentry : entry ∈ d) (hbad : Unwritable entry) : Cause p t .notText
  /-- The condition of a conditional comment is not closed. -/
  | bracket {b r : Text} (hb : ∀ x ∈ b, Text.isIndent x = true)
      (hline : b ++ '/' :: '[' :: r ∈ t.lines) (hr : ']' ∉ r) : Cause p t .noBracket
  /-- The body of a filter is to be run and is not a program. -/
  | program {b name : Text} {e : Failure} (hb : ∀ x ∈ b, Text.isIndent x = true)
      (hline : b ++ ':' :: name ∈ t.lines)
      (hfind : p.filters.registered.get? (Text.trimRight name) = some .program)
      (he : e = .badProgram ∨ e = .badIndent) : Cause p t e

/-- How the readers of the template `t` fail. -/
inductive Flaw (p : Profile) (t : Text) : Failure → Prop
  | rejected {fault : Fault} {near : Option Text} : Flaw p t (.rejected fault near)
  | cause {e : Failure} (h : Cause p t e) : Flaw p t e
  | nested {u : Text} {e : Failure} (hu : Inside u t) (he : compile p u = .error e) : Flaw p t e
  | stalled : Flaw p t .stalled

def Sourced (p : Profile) (t : Text) (attributes : Attributes) : Prop :=
  ∀ entry ∈ attributes, ∃ i d c, BracketAt t i ∧
    Attribute.dictionary p.settings (compile p) (spot t i) = .ok d c ∧ entry ∈ d

theorem Sourced.cause {p : Profile} {t : Text} {attributes : Attributes} {entry : Text × Value}
    (h : Sourced p t attributes) (hentry : entry ∈ attributes) (hbad : Unwritable entry) :
    Cause p t .notText := by
  obtain ⟨i, d, c, hi, hread, hentry⟩ := h entry hentry
  exact .value hi hread hentry hbad

theorem rejects_flaw {p : Profile} {t : Text} :
    Reader.Rejects fun e _ => Flaw p t e := fun _ _ _ => .rejected

/-! ## Dictionaries and elements -/

namespace Element

open Reader
open Attribute (isDash)

variable {c c₁ : Cursor} {p : Profile} {t : Text} {F : Failure → Cursor → Prop}

/-- A dictionary of a text fails for a cause that is seen in the text. -/
theorem flaw_of_dictionary {i : Nat} {e : Failure} (hi : BracketAt t i)
    (h : Attribute.dictionary p.settings (compile p) (spot t i) = .error e c) : Flaw p t e := by
  have hopen : ∃ x r, (spot t i).rest = x :: r ∧ (x = '(' ∨ x = '{') := by
    rcases hi with hi | hi
    · obtain ⟨r, hr⟩ := List.head?_eq_some_iff.mp hi
      exact ⟨_, r, hr, .inr rfl⟩
    · obtain ⟨r, hr⟩ := List.head?_eq_some_iff.mp hi
      exact ⟨_, r, hr, .inl rfl⟩
  obtain ⟨x, r, hr, hx⟩ := hopen
  have hmishap : Mishap (compile p) t e c := by
    have := Attribute.fails_dictionary (.refl (Cursor.within_spot t i)) hr hx e c h
    rwa [Cursor.text_spot] at this
  cases hmishap with
  | rejected => exact .rejected
  | ended hline hblank => exact .cause (.unclosed hi h hline hblank)
  | literal hq hin hbad => exact .cause (.literal hi h hq hin hbad)
  | margin hlines => exact .cause (.margin hi h hlines)
  | block hu he => exact .nested hu he
  | stalled => exact .stalled

theorem dictionary_flawed (h₁ : c.Moves c₁)
    (hx : c₁.rest.head? = some '{' ∨ c₁.rest.head? = some '(') :
    Alike c (Flaw p c.text) (fun d c₂ => c₂.rest.length < c₁.rest.length ∧ Sourced p c.text d)
      (Attribute.dictionary p.settings (compile p) c₁)
      (Attribute.dictionary p.settings (compile p) c₁) := by
  have hspot : c₁ = spot c.text c₁.passed.length := by
    rw [← h₁.text_eq]
    exact h₁.1.eq_spot
  have hi : BracketAt c.text c₁.passed.length := by
    rw [hspot] at hx
    exact hx
  apply ((Attribute.dictionary_alike h₁.1 (.self _ (compile p))).since h₁).sharpen
  · intro d c₂ hread hlt
    rw [hspot] at hread
    exact ⟨hlt.2, fun entry hentry => ⟨_, d, c₂, hi, hread, hentry⟩⟩
  · intro e c₂ hread
    rw [hspot] at hread
    exact flaw_of_dictionary hi hread

theorem dictionaryTurn_flawed {d : Attributes} (h₁ : c.Moves c₁) (hd : Sourced p c.text d) :
    Alike c (Flaw p c.text)
      (Turned (fun d _ => Sourced p c.text d) (fun d _ => Sourced p c.text d) c₁)
      (dictionaryTurn p.settings (compile p) d c₁)
      (dictionaryTurn p.settings (compile p) d c₁) := by
  refine (peek?_alike h₁).bind fun o c₂ h₂ ho => ?_
  obtain ⟨rfl, ho⟩ := ho
  have hread : c₂.rest.head? = some '{' ∨ c₂.rest.head? = some '(' → Alike c (Flaw p c.text)
      (Turned (fun d _ => Sourced p c.text d) (fun d _ => Sourced p c.text d) c₂)
      ((do return .inl (d.update (← Attribute.dictionary p.settings (compile p))) :
        Reader (Attributes ⊕ Attributes)) c₂)
      ((do return .inl (d.update (← Attribute.dictionary p.settings (compile p))) :
        Reader (Attributes ⊕ Attributes)) c₂) := by
    intro hx
    refine (dictionary_flawed h₂ hx).bind fun new c₃ h₃ hnew => alike_pure h₃ ⟨hnew.1, ?_⟩
    intro entry hentry
    rcases Dictionary.mem_update hentry with hentry | hentry
    · exact hd entry hentry
    · exact hnew.2 entry hentry
  split
  · exact hread (.inl ho.symm)
  · exact hread (.inr ho.symm)
  · exact alike_pure h₂ hd

theorem dictionaries_flawed (hc : c.Within) :
    Alike c (Flaw p c.text) (fun d _ => Sourced p c.text d)
      (dictionaries p.settings (compile p) (' ' :: c.rest) [] c)
      (dictionaries p.settings (compile p) (' ' :: c.rest) [] c) := by
  rw [dictionaries_eq]
  exact iterate_alike (fun d c₁ h₁ hd => dictionaryTurn_flawed h₁ hd) _ _ [] (.refl hc) nofun
    (by simp) (by simp)

theorem fails_tagName (hF : Rejects F) (h₁ : c.Moves c₁) : FailsAt F tagName c₁ := by
  refine (fails_word hF _ h₁).bind (word_alike anything _ h₁) fun w c₂ h₂ _ => ?_
  refine .after (accept_alike ':' h₂) fun b c₃ h₃ _ => ?_
  refine .ite (fun _ => ?_) (fun _ => failsAt_pure _)
  exact (fails_word hF _ h₃).bind (word_alike anything _ h₃) fun _ _ _ _ => failsAt_pure _

theorem fails_shortcutTurn (hF : Rejects F) (r : Option Text × List Scalar) (h₁ : c.Moves c₁) :
    FailsAt F (shortcutTurn r) c₁ := by
  refine .after (accept_alike '#' h₁) fun b c₂ h₂ _ => .ite (fun _ => ?_) (fun _ => ?_)
  · exact (fails_word hF _ h₂).bind (word_alike anything _ h₂) fun _ _ _ _ => failsAt_pure _
  · refine .after (accept_alike '.' h₂) fun b c₃ h₃ _ => .ite (fun _ => ?_) (fun _ => ?_)
    · exact (fails_word hF _ h₃).bind (word_alike anything _ h₃) fun _ _ _ _ => failsAt_pure _
    · exact failsAt_pure _

theorem fails_shortcuts (hF : Rejects F) (hstalled : ∀ c', F .stalled c') (hc : c.Within)
    (steps : Text) : FailsAt F (shortcuts steps none []) c := by
  rw [shortcuts_eq]
  refine failsAt_iterate (I := fun _ _ => True) (Q := fun _ _ => True) hstalled
    (fun r c' h' _ => fails_shortcutTurn hF r h') (fun r c' h' _ => ?_) steps _ (.refl hc) trivial
  refine (shortcutTurn_alike anything r h').mono fun o _ _ ho => ?_
  cases o with
  | inl r' => exact ⟨ho.1, trivial⟩
  | inr r' => trivial

/-- The shortcuts of an element, if it may have some, and what is read after them. -/
theorem shortcutsIf_flawed {β : Type} {R : β → Cursor → Prop}
    {f : Option Text × List Scalar → Reader β} (hs : Bool) (h₁ : c.Moves c₁)
    (hf : ∀ r c₂, c.Moves c₂ → Shortcut r → Alike c (Flaw p t) R (f r c₂) (f r c₂)) :
    Alike c (Flaw p t) R
      ((if hs = true then do let t ← Reader.allowance; let r ← shortcuts t none []; f r
        else do let r ← pure (none, []); f r) c₁)
      ((if hs = true then do let t ← Reader.allowance; let r ← shortcuts t none []; f r
        else do let r ← pure (none, []); f r) c₁) := by
  refine .ite (fun _ => ?_) (fun _ => ?_)
  · refine (allowance_alike h₁).bind fun steps c₂ h₂ ha => ?_
    obtain ⟨rfl, rfl⟩ := ha
    have hread : Alike c (Flaw p t) (fun r _ => Shortcut r)
        (shortcuts (' ' :: c₂.rest) none [] c₂) (shortcuts (' ' :: c₂.rest) none [] c₂) :=
      ((shortcuts_alike anything h₂.1 _ (by simp)).since h₂).sharpen (fun _ _ _ hr => hr.2.1)
        (fails_shortcuts rejects_flaw (fun _ => .stalled) h₂.1 _)
    exact hread.bind fun r c₃ h₃ hr => hf r c₃ h₃ hr
  · exact Alike.bind (Q := fun r _ => r = (none, [])) (alike_pure h₁ rfl) fun r c₂ h₂ hr =>
      hf r c₂ h₂ (by rw [hr]; exact ⟨nofun, nofun⟩)

theorem texts_error {vs : List Scalar} {e : Failure} (h : texts vs = .error e) :
    e = .notText ∧ ∃ v ∈ vs, v.text? = none := by
  obtain ⟨v, hv, he⟩ := exists_of_mapM_eq_error h
  cases ht : v.text? with
  | none =>
    rw [ht] at he
    exact ⟨(Except.error.inj he).symm, v, hv, ht⟩
  | some w =>
    rw [ht] at he
    cases he

theorem mergeIds_error {ids : List Scalar} {e : Failure} (h : mergeIds ids = .error e) :
    texts ids = .error e := by
  unfold mergeIds at h
  split at h
  · cases h
  · rcases bind_eq_error h with h | ⟨ts, _, h⟩
    · exact h
    · cases h

/-- An element is not built because of an id that is not a text. -/
theorem build_error {tag id : Option Text} {classes : List Scalar} {attributes : Attributes}
    {e : Failure} (h : build tag id classes attributes = .error e) :
    e = .notText ∧ ∃ entry ∈ attributes, Unwritable entry := by
  rcases bind_eq_error h with h | ⟨merged, _, h⟩
  · obtain ⟨he, v, hv, hnone⟩ := texts_error (mergeIds_error h)
    refine ⟨he, ?_⟩
    rcases List.mem_append.mp hv with hv | hv
    · cases id with
      | none => cases hv
      | some i =>
        simp only at hv
        split at hv
        · cases hv
        · obtain rfl := List.mem_singleton.mp hv
          cases hnone
    · unfold dictionaryIds at hv
      split at hv
      · next ids hids => exact ⟨_, Dictionary.mem_of_get? hids, v, hv, hnone⟩
      · obtain rfl := List.mem_singleton.mp hv
        cases hnone
      · cases hv
  · cases h

end Element

/-! ## Lines -/

structure Cursor.Indented (c : Cursor) (b : Text) : Prop where
  blank : ∀ x ∈ b, Text.isIndent x = true
  start : ∃ w, Text.EndsInBreak w ∧ c.passed.reverse = w ++ b

/-- The position is the start of a line, or the end of the text. -/
def Cursor.AtLine (c : Cursor) : Prop := c.rest = [] ∨ Text.EndsInBreak c.passed.reverse

theorem Cursor.LineEnd.atLine {c : Cursor} (h : c.LineEnd) : c.AtLine := by
  rcases h with h | h
  · exact .inl h
  · exact .inr (.inr (by rw [List.getLast?_reverse, h]))

namespace Reader

variable {c c₁ : Cursor} {b : Text}

/-- The lines of the text from the one on that the position stands in. -/
theorem exists_lines_indented (h : c.Indented b) :
    ∃ before, c.text.lines = before ++ (b ++ c.rest).lines := by
  obtain ⟨w, hw, hpassed⟩ := h.start
  rw [Cursor.text, hpassed, List.append_assoc]
  exact Text.exists_lines_append hw (b ++ c.rest)

theorem not_mem_of_indented (h : c.Indented b) : '\n' ∉ b := by
  intro hmem
  have hx := h.blank _ hmem
  simp [Text.isIndent] at hx

theorem LineRead.lines_eq {l : Text} {c₂ : Cursor} (h : LineRead c₁ l c₂) :
    ∃ ls, c₁.rest.lines = l :: ls ∧ (c₂.rest ≠ [] → ls = c₂.rest.lines) := by
  rcases h.2 with hr | ⟨hr, hend⟩
  · exact ⟨c₂.rest.lines, by rw [hr, Text.lines_append_break, Text.lines_of_not_mem h.1]; rfl,
      fun _ => rfl⟩
  · exact ⟨[], by rw [hr, Text.lines_of_not_mem h.1], fun hne => absurd hend hne⟩

/-- A line that starts with one more character. -/
theorem LineRead.cons {x : Char} {l : Text} {c₂ : Cursor} (hx : c.rest = x :: c₁.rest)
    (hbreak : x ≠ '\n') (h : LineRead c₁ l c₂) : LineRead c (x :: l) c₂ := by
  refine ⟨?_, ?_⟩
  · rw [List.mem_cons, not_or]
    exact ⟨Ne.symm hbreak, h.1⟩
  · rcases h.2 with hr | ⟨hr, hend⟩
    · exact .inl (by rw [hx, hr]; rfl)
    · exact .inr ⟨by rw [hx, hr], hend⟩

/-- What follows the indentation up to the end of its line makes up a line of the text. -/
theorem LineRead.indented {l : Text} {c₂ : Cursor} (h : LineRead c l c₂) (hb : c.Indented b) :
    ∃ before after, c.text.lines = before ++ (b ++ l) :: after ∧
      (c₂.rest ≠ [] → after = c₂.rest.lines) := by
  obtain ⟨before, hlines⟩ := exists_lines_indented hb
  have hl : '\n' ∉ b ++ l := by
    rw [List.mem_append, not_or]
    exact ⟨not_mem_of_indented hb, h.1⟩
  rw [hlines]
  rcases h.2 with hr | ⟨hr, hend⟩
  · refine ⟨before, c₂.rest.lines, ?_, fun _ => rfl⟩
    rw [hr, ← List.append_assoc, Text.lines_append_break, Text.lines_of_not_mem hl]
    rfl
  · refine ⟨before, [], ?_, fun hne => absurd hend hne⟩
    rw [hr, Text.lines_of_not_mem hl]

end Reader

namespace Element

open Reader

variable {c c₁ : Cursor} {p : Profile} {b : Text}

/-- A mark that is alone on the last line. -/
theorem flaw_of_mark {mark : Char} (hb : c.Indented b) (hr : c.rest = [mark])
    (hmark : mark = '.' ∨ mark = ':') : Flaw p c.text .bareMark := by
  have hbreak : '\n' ∉ b ++ [mark] := by
    rw [List.mem_append, not_or]
    refine ⟨not_mem_of_indented hb, ?_⟩
    rcases hmark with rfl | rfl <;> decide
  refine .cause (.lone hb.blank hmark ?_)
  obtain ⟨before, hlines⟩ := exists_lines_indented hb
  rw [hlines, hr, Text.lines_of_not_mem hbreak]
  simp

/-- An element is started at one of its marks. -/
theorem fails_opening {x : Char} {r : Text} (hc : c.Within) (hb : c.Indented b)
    (hr : c.rest = x :: r) (hx : x = '%' ∨ x = '#' ∨ x = '.') :
    FailsAt (fun e _ => Flaw p c.text e) opening c := by
  refine .after (peek_alike_of_ne_nil (.refl hc) (by simp [hr])) fun y c₁ h₁ hy => ?_
  obtain ⟨rfl, u, hu⟩ := hy
  obtain ⟨rfl, rfl⟩ : x = y ∧ r = u := List.cons_eq_cons.mp (hr.symm.trans hu)
  refine .ite (fun _ => ?_) (fun htag => .ite (fun hpoint => ?_) (fun hpoint => ?_))
  · refine .after (skip_alike h₁ hr) fun _ c₂ h₂ _ => ?_
    exact (fails_tagName rejects_flaw h₂).bind (tagName_alike anything h₂)
      fun _ _ _ _ => failsAt_pure _
  · have hbare : FailsAt (fun e _ => Flaw p c₁.text e) isBarePoint c₁ := by
      intro e c' h
      unfold isBarePoint at h
      simp only [Cursor.ahead, hc.2, if_true, hr] at h
      cases r with
      | nil =>
        cases h
        exact flaw_of_mark hb hr (.inl hpoint)
      | cons y r => cases h
    refine hbare.bind (isBarePoint_alike anything h₁) fun _ c₂ h₂ he => ?_
    subst he
    exact .ite (fun _ => .after (skip_alike h₂ hr) fun _ _ _ _ => failsAt_pure _)
      (fun _ => failsAt_pure _)
  · refine .ite (fun _ => failsAt_pure _) (fun hid => ?_)
    rcases hx with hx | hx | hx
    · exact absurd hx htag
    · exact absurd hx hid
    · exact absurd hx hpoint

theorem attributes_build {tag id : Option Text} {classes : List Scalar} {attributes : Attributes}
    {e : Element} (h : build tag id classes attributes = .ok e) : e.attributes = attributes := by
  obtain ⟨merged, _, h⟩ := bind_eq_ok h
  rw [← Except.ok.inj h]

/-- An element fails for a cause that is seen in the text, and its attributes stand there. -/
theorem element_flawed {x : Char} {r : Text} (hc : c.Within) (hb : c.Indented b)
    (hr : c.rest = x :: r) (hx : x = '%' ∨ x = '#' ∨ x = '.') :
    Alike c (Flaw p c.text) (fun e _ => Sourced p c.text e.attributes)
      (element p.settings (compile p) c) (element p.settings (compile p) c) := by
  have hopening : Alike c (Flaw p c.text) (fun _ _ => True) (opening c) (opening c) :=
    (opening_alike anything hc).sharpen (fun _ _ _ _ => trivial) (fails_opening hc hb hr hx)
  refine hopening.bind fun r c₁ h₁ _ => ?_
  obtain ⟨tag, hs⟩ := r
  refine shortcutsIf_flawed hs h₁ fun r c₂ h₂ _ => ?_
  obtain ⟨id, classes⟩ := r
  refine (allowance_alike h₂).bind fun t c₃ h₃ ha => ?_
  obtain ⟨rfl, rfl⟩ := ha
  have hdictionaries : Alike c (Flaw p c.text) (fun d _ => Sourced p c.text d)
      (dictionaries p.settings (compile p) (' ' :: c₃.rest) [] c₃)
      (dictionaries p.settings (compile p) (' ' :: c₃.rest) [] c₃) := by
    rw [← h₃.text_eq]
    exact ((dictionaries_flawed h₃.1).since h₃).mono fun _ _ _ hd => hd.2
  refine hdictionaries.bind fun attributes c₄ h₄ hsourced => ?_
  refine (accept_alike '>' h₄).bind fun outer c₅ h₅ _ => ?_
  refine (accept_alike '<' h₅).bind fun inner c₆ h₆ _ => ?_
  refine (accept_alike '/' h₆).bind fun slash c₇ h₇ _ => ?_
  refine (accept_alike '=' h₇).bind fun equals c₈ h₈ _ => ?_
  refine (line?_alike h₈).bind fun inline c₉ h₉ _ => ?_
  cases hbuild : build tag id classes attributes with
  | error e =>
    obtain ⟨rfl, entry, hentry, hbad⟩ := build_error hbuild
    exact alike_throw h₉ (.cause (hsourced.cause hentry hbad))
  | ok e =>
    refine alike_pure h₉ ?_
    rw [← attributes_build hbuild] at hsourced
    exact hsourced

end Element

/-- Where the content of a node comes from in the text. -/
def Traced (p : Profile) (t : Text) : Content → Prop
  | .element e => Sourced p t e.attributes
  | .conditional line => ∃ b r, (∀ x ∈ b, Text.isIndent x = true) ∧
      b ++ '/' :: '[' :: r ∈ t.lines ∧ line = Text.trimRight ('/' :: '[' :: r)
  | .filter name _ => ∃ b l, (∀ x ∈ b, Text.isIndent x = true) ∧
      b ++ ':' :: l ∈ t.lines ∧ name = Text.trimRight l
  | _ => True

namespace Node

open Reader

variable {c c₁ : Cursor} {p : Profile} {b : Text}

/-- The lines of a filter are blank or deeper than it. -/
theorem deeperTurn_beyond (depth : Nat) (h₁ : c.Moves c₁) :
    Alike c (fun _ => True) (fun o c₂ => ∀ l, o = some l →
        c₁.rest ≠ [] ∧ ∃ row, LineRead c₁ row c₂ ∧ Beyond depth row)
      (deeperTurn depth c₁) (deeperTurn depth c₁) := by
  refine (atEnd_alike h₁).bind fun b c₂ h₂ hb => ?_
  obtain ⟨rfl, hb⟩ := hb
  refine .ite (fun _ => alike_pure h₂ nofun) (fun hend => ?_)
  refine (peekMargin_alike anything h₂).bind fun m c₃ h₃ hm => ?_
  obtain ⟨rfl, hm⟩ := hm
  obtain ⟨first, others, hlines, hfirst⟩ := margin?_line hm
  have hline (hbeyond : Beyond depth first) : Alike c (fun _ => True) (fun o c₂ => ∀ l, o = some l →
        c₃.rest ≠ [] ∧ ∃ row, LineRead c₃ row c₂ ∧ Beyond depth row)
      ((do return some (Attribute.blankToEmpty (← Reader.line)) : Reader (Option Text)) c₃)
      ((do return some (Attribute.blankToEmpty (← Reader.line)) : Reader (Option Text)) c₃) := by
    refine (line_alike h₃).bind fun row c₄ h₄ hrow => alike_pure h₄ fun l _ => ?_
    obtain ⟨ls, hls, _⟩ := hrow.lines_eq
    obtain ⟨rfl, _⟩ : first = row ∧ others = ls := List.cons_eq_cons.mp (hlines.symm.trans hls)
    exact ⟨fun he => hend (hb.mpr he), first, hrow, hbeyond⟩
  cases m with
  | none => exact hline (.inl hfirst)
  | some m =>
    refine .ite (fun _ => alike_pure h₃ nofun) (fun hlt => hline (.inr ?_))
    rw [hfirst.1]
    omega

theorem fails_deeperTurn (depth : Nat) (hc : c.Within) :
    FailsAt (fun e _ => e = .pastEnd ∧ c.rest ≠ [] ∧ '\n' ∉ c.rest ∧
      ∀ x ∈ c.rest, Text.isBlank x = true) (deeperTurn depth) c := by
  refine .after (atEnd_alike (.refl hc)) fun b c₁ h₁ hb => ?_
  obtain ⟨rfl, hb⟩ := hb
  refine .ite (fun _ => failsAt_pure _) (fun hend => ?_)
  have hmargin : FailsAt (fun e _ => e = .pastEnd ∧ c₁.rest ≠ [] ∧ '\n' ∉ c₁.rest ∧
      ∀ x ∈ c₁.rest, Text.isBlank x = true) peekMargin c₁ := by
    intro e c' h
    unfold peekMargin at h
    simp only [Cursor.ahead, hc.2, if_true] at h
    cases hm : margin? c₁.rest with
    | ok m =>
      rw [hm] at h
      cases h
    | error e' =>
      rw [hm] at h
      cases h
      obtain ⟨rfl, hline, hblank⟩ := margin?_error hm
      exact ⟨rfl, fun he => hend (hb.mpr he), hline, hblank⟩
  refine hmargin.bind (peekMargin_alike anything h₁) fun m c₂ h₂ _ => ?_
  cases m with
  | none => exact .after (line_alike h₂) fun _ _ _ _ => failsAt_pure _
  | some m =>
    exact .ite (fun _ => failsAt_pure _)
      (fun _ => .after (line_alike h₂) fun _ _ _ _ => failsAt_pure _)

/-- The lines of a filter come to the end of the text before they fail. -/
theorem fails_deeperLines {F : Failure → Cursor → Prop} {depth : Nat}
    (hstalled : ∀ c', F .stalled c')
    (hF : ∀ rows last, c.rest.lines = rows ++ [last] → (∀ l ∈ rows, Beyond depth l) → last ≠ [] →
      (∀ x ∈ last, Text.isBlank x = true) → ∀ c', F .pastEnd c')
    (hc : c.Within) (steps : Text) : FailsAt F (deeperLines depth steps) c := by
  rw [deeperLines_eq]
  refine failsAt_iterate (Q := fun _ _ => True)
    (I := fun _ c' => ∃ rows, LinesRead c rows c' ∧ ∀ l ∈ rows, Beyond depth l) hstalled
    (fun acc c₁ h₁ hI => failsAt_gather ?_) (fun acc c₁ h₁ hI => gather_alike ?_) steps []
    (.refl hc) ⟨[], .inl rfl, nofun⟩
  · obtain ⟨rows, hrows, hbeyond⟩ := hI
    intro e c' h
    obtain ⟨rfl, hne, hline, hblank⟩ := fails_deeperTurn depth h₁.1 e c' h
    obtain hlines | ⟨hnil, _⟩ := hrows
    · rw [Text.lines_of_not_mem hline] at hlines
      exact hF rows c₁.rest hlines hbeyond hne hblank c'
    · exact absurd hnil hne
  · obtain ⟨rows, hrows, hbeyond⟩ := hI
    refine ((deeperTurn_alike anything depth h₁).both (deeperTurn_beyond depth h₁)).mono
      fun o c₂ _ ho => ?_
    cases o with
    | none => trivial
    | some l =>
      obtain ⟨hne, row, hrow, hdeep⟩ := ho.2 l rfl
      refine ⟨ho.1.length_lt, rows ++ [row], hrows.line hne hrow, fun k hk => ?_⟩
      rcases List.mem_append.mp hk with hk | hk
      · exact hbeyond k hk
      · rw [List.mem_singleton.mp hk]
        exact hdeep

theorem filterNode_flawed {indent r : Text} (hlen : indent.length = b.length) (hc : c.Within)
    (hb : c.Indented b) (hr : c.rest = ':' :: r) :
    Alike c (Flaw p c.text) (fun n _ => Traced p c.text n.content)
      (filterNode indent c) (filterNode indent c) := by
  refine (peek_alike_of_ne_nil (.refl hc) (by simp [hr])).bind fun x c₁ h₁ hx => ?_
  obtain ⟨rfl, u, hu⟩ := hx
  obtain ⟨rfl, rfl⟩ : ':' = x ∧ r = u := List.cons_eq_cons.mp (hr.symm.trans hu)
  refine .ite (fun hne => absurd rfl hne) (fun _ => ?_)
  refine (skip_alike h₁ hr).bind fun _ c₂ h₂ hs => ?_
  refine ((line?_alike (.refl h₂.1)).since h₂).bind fun name c₃ h₃ hn => ?_
  refine (allowance_alike h₃).bind fun steps c₄ h₄ ha => ?_
  obtain ⟨rfl, rfl⟩ := ha
  have hend : c₄.LineEnd := by
    rcases hn.2 with ⟨_, rfl, hnil⟩ | ⟨l, _, _, hl⟩
    · exact .inl hnil
    · exact hl.lineEnd h₂ h₄
  have hbody : Alike c₁ (Flaw p c₁.text) (fun _ _ => True)
      (deeperLines indent.length (' ' :: c₄.rest) c₄)
      (deeperLines indent.length (' ' :: c₄.rest) c₄) := by
    apply ((deeperLines_alike anything _ _ (.refl h₄.1) hend (by simp)).since h₄).sharpen
    · exact fun _ _ _ _ => trivial
    · refine fails_deeperLines (fun _ => .stalled) (fun rows last hlines hbeyond hne hblank _ => ?_)
        h₄.1 _
      -- there is more text after the line of the filter
      have hmore : c₄.rest ≠ [] := by
        intro hnil
        rw [hnil] at hlines
        have hlast := congrArg List.getLast? hlines
        rw [List.getLast?_concat] at hlast
        exact hne (Option.some.inj hlast).symm
      rcases hn.2 with ⟨_, rfl, hnil⟩ | ⟨l, _, _, hl⟩
      · exact absurd hnil hmore
      · obtain ⟨before, after, htext, hafter⟩ := (hl.cons hs.1 (by decide)).indented hb
        rw [hafter hmore, hlines] at htext
        rw [hlen] at hbeyond
        exact .cause (.filter hb.blank htext hbeyond hne hblank)
  refine hbody.bind fun body c₅ h₅ _ => ?_
  rcases hn.2 with ⟨rfl, rfl, hnil⟩ | ⟨l, rfl, _, hl⟩
  · exact alike_throw h₅ (Element.flaw_of_mark hb (by rw [hs.1, hnil]) (.inr rfl))
  · obtain ⟨before, after, htext, _⟩ := (hl.cons hs.1 (by decide)).indented hb
    exact alike_pure h₅ ⟨b, l, hb.blank, by rw [htext]; simp, rfl⟩

theorem ofLine_error {l t : Text} {e : Failure} (h : ofLine p l = .error e) : Flaw p t e := by
  unfold ofLine at h
  dsimp only at h
  split at h
  · cases h
  · split at h
    any_goals cases h
    split at h
    · cases h
      exact .rejected
    · cases h

theorem traced_ofLine {l t : Text} {content : Content} (h : ofLine p l = .ok content)
    (hb : ∀ x ∈ b, Text.isIndent x = true) (hl : b ++ l ∈ t.lines) : Traced p t content := by
  rcases ofLine_cases h with h | ⟨rfl, r, rfl⟩ | ⟨rfl, _⟩
  · simp only [List.map_cons, List.map_nil, List.mem_cons, List.not_mem_nil, or_false] at h
    rcases h with rfl | rfl | rfl | rfl | rfl <;> trivial
  · exact ⟨b, r, hb, hl, rfl⟩
  · trivial

/-- A node fails for a cause that is seen in the text, and its content comes from there. -/
theorem node_flawed {indent : Text} (hlen : indent.length = b.length) (hc : c.Within)
    (hb : c.Indented b) (hne : c.rest ≠ []) :
    Alike c (Flaw p c.text) (fun n _ => Traced p c.text n.content)
      (node p (compile p) indent c) (node p (compile p) indent c) := by
  refine (peek_alike_of_ne_nil (.refl hc) hne).bind fun x c₁ h₁ hx => ?_
  obtain ⟨rfl, r, hr⟩ := hx
  refine .ite (fun hfilter => ?_) (fun _ => ?_)
  · subst hfilter
    exact filterNode_flawed hlen hc hb hr
  refine (get_alike h₁).bind fun a c₂ h₂ ha => ?_
  obtain ⟨rfl, rfl⟩ := ha
  refine .ite (fun hstarts => ?_) (fun _ => ?_)
  · have hx : x = '%' ∨ x = '#' ∨ x = '.' := by
      have hahead : a.ahead = x :: r := by simp [Cursor.ahead, hc.2, hr]
      rw [startsElement, hahead, Bool.and_eq_true] at hstarts
      simpa [or_assoc] using hstarts.1
    exact (Element.element_flawed hc hb hr hx).bind fun e c₃ h₃ he => alike_pure h₃ he
  · refine (line_alike h₂).bind fun l c₃ h₃ hl => ?_
    cases hline : ofLine p l with
    | ok content =>
      obtain ⟨before, after, htext, _⟩ := hl.indented hb
      exact alike_pure h₃ (traced_ofLine hline hb.blank (by rw [htext]; simp))
    | error e => exact alike_throw h₃ (ofLine_error hline)

/-- Blank lines are passed over from the start of a line to the indentation of another. -/
theorem blankTurn_indented {E : Failure → Prop} (n : Nat) (h₁ : c.Moves c₁) (hline : c₁.AtLine) :
    Alike c E (Turned (fun _ c₂ => c₂.AtLine)
        (fun r c₂ => c₂.rest ≠ [] → ∃ b, r.2 = uniform b ∧ c₂.Indented b) c₁)
      (blankTurn n c₁) (blankTurn n c₁) := by
  refine (indentation_alike h₁).bind fun b c₂ h₂ hb => ?_
  have hpassed := h₁.passed_eq h₂ hb.2
  refine (accept_alike '\n' h₂).bind fun found c₃ h₃ hfound => ?_
  rcases hfound with ⟨rfl, hr⟩ | ⟨rfl, rfl, _⟩
  · refine alike_pure h₃ ⟨?_, .inr (.inr ?_)⟩
    · have hlen := length_le_of_append hb.2
      simp only [hr, List.length_cons] at hlen
      omega
    · have hbreak : c₃.passed = ['\n'].reverse ++ c₂.passed := h₂.passed_eq h₃ hr
      rw [hbreak]
      simp
  · refine alike_pure h₃ fun hne => ⟨b, rfl, fun x hx => ?_, c₁.passed.reverse, ?_, ?_⟩
    · rw [hb.1] at hx
      exact List.all_eq_true.mp List.all_takeWhile x hx
    · rcases hline with hnil | hstart
      · have hlen := length_le_of_append hb.2
        rw [hnil, List.length_nil] at hlen
        exact absurd (List.length_eq_zero_iff.mp (Nat.le_zero.mp hlen)) hne
      · exact hstart
    · rw [hpassed]
      simp

theorem next_flawed (hc : c.Within) (hline : c.AtLine) :
    Alike c (Flaw p c.text) (fun r _ => ∀ n, r.2 = some n → Traced p c.text n.content)
      (next p (compile p) c) (next p (compile p) c) := by
  refine (allowance_alike (.refl hc)).bind fun steps c₁ h₁ ha => ?_
  obtain ⟨rfl, rfl⟩ := ha
  have hblank : Alike c₁ (Flaw p c₁.text)
      (fun r c₂ => c₂.rest ≠ [] → ∃ b, r.2 = uniform b ∧ c₂.Indented b)
      (blankLines (' ' :: c₁.rest) 0 c₁) (blankLines (' ' :: c₁.rest) 0 c₁) := by
    rw [blankLines_eq]
    exact iterate_alike (I := fun _ c₂ => c₂.AtLine) (fun n c' h' hl => blankTurn_indented n h' hl)
      _ _ 0 h₁ hline (by simp) (by simp)
  refine hblank.bind fun r c₂ h₂ hr => ?_
  obtain ⟨blanks, indent⟩ := r
  refine (atEnd_alike h₂).bind fun atEnd c₃ h₃ hend => ?_
  obtain ⟨rfl, hend⟩ := hend
  refine .ite (fun _ => alike_pure h₃ nofun) (fun hmore => ?_)
  have hne : c₃.rest ≠ [] := fun he => hmore (hend.mpr he)
  obtain ⟨b, rfl, hb⟩ := hr hne
  have hnode := node_flawed (p := p) (length_uniform b) h₃.1 hb hne
  rw [h₃.text_eq] at hnode
  refine (hnode.since h₃).bind fun n c₄ h₄ hn => alike_pure h₄ ?_
  rintro _ ⟨⟩
  exact hn.2

theorem traced_addNewlines {t : Text} {blanks : Nat} {read : List Node}
    (h : ∀ n ∈ read, Traced p t n.content) :
    ∀ n ∈ addNewlines blanks read, Traced p t n.content := by
  cases read with
  | nil => exact h
  | cons m ms =>
    intro n hn
    rcases List.mem_cons.mp hn with rfl | hn
    · exact h m (List.mem_cons_self ..)
    · exact h n (List.mem_cons_of_mem _ hn)

theorem nodeTurn_flawed (read : List Node) (hc : c.Within) (hline : c.AtLine) :
    Alike c (Flaw p c.text)
      (Turned
        (fun read' c₁ => c₁.AtLine ∧
          ((∀ n ∈ read, Traced p c.text n.content) → ∀ n ∈ read', Traced p c.text n.content))
        (fun read' _ =>
          (∀ n ∈ read, Traced p c.text n.content) → ∀ n ∈ read', Traced p c.text n.content) c)
      (nodeTurn p (compile p) read c) (nodeTurn p (compile p) read c) := by
  have hnext := (next_flawed (p := p) hc hline).both (next_alike (.refl p) hc (.self _ (compile p)))
  refine hnext.bind fun r c₁ h₁ hr => ?_
  obtain ⟨htraced, hmoved, _⟩ := hr
  obtain ⟨blanks, found⟩ := r
  cases found with
  | none =>
    refine alike_pure h₁ fun hread n hn => ?_
    exact traced_addNewlines hread n (List.mem_reverse.mp hn)
  | some m =>
    obtain ⟨hlt, _, hend⟩ := hmoved m rfl
    refine alike_pure h₁ ⟨hlt, hend.atLine, fun hread n hn => ?_⟩
    rcases List.mem_cons.mp hn with rfl | hn
    · exact htraced n rfl
    · exact traced_addNewlines hread n hn

theorem all_flawed (p : Profile) (t : Text) :
    Alike (.ofText t) (Flaw p t) (fun nodes _ => ∀ n ∈ nodes, Traced p t n.content)
      (all p (compile p) (' ' :: t) [] (.ofText t))
      (all p (compile p) (' ' :: t) [] (.ofText t)) := by
  rw [all_eq]
  refine iterate_alike (I := fun read c => c.AtLine ∧ ∀ n ∈ read, Traced p t n.content)
    (fun read c₁ h₁ hI => ?_) _ _ [] (.refl (Cursor.within_ofText t)) ⟨.inr (.inl rfl), nofun⟩
    (by simp [Cursor.ofText]) (by simp [Cursor.ofText])
  have htext : c₁.text = t := h₁.text_eq.trans (Cursor.text_ofText t)
  have hturn := nodeTurn_flawed (p := p) read h₁.1 hI.1
  rw [htext] at hturn
  refine (hturn.since h₁).mono fun r c₂ _ hr => ?_
  cases r with
  | inl read' => exact ⟨hr.2.1, hr.2.2.1, hr.2.2.2 hI.2⟩
  | inr nodes => exact hr.2 hI.2

end Node

/-- The nodes of a template come from its text, and their reading fails for a cause that is seen
there, or in a block value. -/
theorem readNodes_flawed (p : Profile) (t : Text) :
    match readNodes p (compile p) t with
    | .ok nodes => ∀ n ∈ nodes, Traced p t n.content
    | .error e => Flaw p t e := by
  obtain ⟨_, hout⟩ := Node.all_flawed p t
  unfold readNodes
  cases hr : Node.all p (compile p) (' ' :: t) [] (.ofText t) with
  | ok nodes c =>
    rw [hr] at hout
    exact hout.2
  | error e c =>
    rw [hr] at hout
    exact hout.2

end Haml
