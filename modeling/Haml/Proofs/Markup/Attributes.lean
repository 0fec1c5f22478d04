import Haml.Proofs.Markup.Shown
import Haml.Proofs.Reading.Spellings
import Haml.Proofs.Text.Guarded

/-!
Attributes in the opening tag. What is written there is a list of names, most of them with a value
between quotes; inline variables are replaced in all of it at once. Main statement: cut at the
quotes that no backslash stands before, the text gives back the attributes, each with its own value,
if ids and classes have no quotes, no value ends in a backslash and no variable that a value leaves
open is closed by a later one.
-/
namespace Haml

/-- A list of outcomes that are all values. -/
theorem mapM_of_ok {α β : Type} {f : α → Except Failure β} {g : α → β} {as : List α}
    (h : ∀ a ∈ as, f a = .ok (g a)) : as.mapM f = .ok (as.map g) := by
  induction as with
  | nil => rfl
  | cons a as ih =>
    rw [List.mapM_cons, h a (by simp), ih fun a ha => h a (by simp [ha])]
    rfl

/-! ## Attributes that are shown -/

/-- An attribute as it is shown: a name, and a value unless the name stands alone. -/
structure Attribute.Shown where
  name : Text
  value : Option Text
  deriving DecidableEq, Repr

namespace Attribute.Shown

def text (q : Char) (a : Shown) : Text :=
  match a.value with
  | some v => a.name ++ '=' :: q :: (v ++ [q])
  | none => a.name

def map (f : Text → Text) (a : Shown) : Shown := ⟨a.name, a.value.map f⟩

/-- The attributes as they stand behind the tag, each after a space. -/
def row (q : Char) (as : List Shown) : Text := as.flatMap fun a => ' ' :: a.text q

/-- The pieces between the quotes of a row: the names up to one with a value, and the value. -/
def pieces (lead : Text) : List Shown → List Text
  | [] => [lead]
  | ⟨name, none⟩ :: as => pieces (lead ++ ' ' :: name) as
  | ⟨name, some v⟩ :: as => (lead ++ ' ' :: name ++ ['=']) :: v :: pieces [] as

/-- No variable that the first value leaves open is closed by the second one. -/
def Apart (b : Bool) (a c : Shown) : Prop :=
  ∀ v ∈ a.value, InlineVariable.leavesOpen b v = true → ∀ w ∈ c.value, '}' ∉ w

instance (b : Bool) (a c : Shown) : Decidable (Apart b a c) :=
  inferInstanceAs (Decidable (∀ v ∈ a.value, _))

theorem map_map (f g : Text → Text) (a : Shown) : (a.map g).map f = a.map (f ∘ g) := by
  simp [map]

theorem exists_of_map {f : Text → Text} {a : Shown} {v : Text} (h : (a.map f).value = some v) :
    ∃ u, a.value = some u ∧ f u = v :=
  Option.map_eq_some_iff.mp h

/-- A backslash before each quote does not bring values together. -/
theorem Apart.guard {b : Bool} {q : Char} {a c : Shown} (hq : InlineVariable.Firm b q)
    (h : Apart b a c) : Apart b (a.map (Text.guard q)) (c.map (Text.guard q)) := by
  intro v hv hopen w hw
  obtain ⟨v, hv', rfl⟩ := exists_of_map hv
  obtain ⟨w, hw', rfl⟩ := exists_of_map hw
  rw [InlineVariable.leavesOpen_guard hq] at hopen
  rw [Text.mem_guard (by decide)]
  exact h v hv' hopen w hw'

theorem text_ne_nil {q : Char} {a : Shown} (h : a.name ≠ []) : a.text q ≠ [] := by
  unfold text
  split
  · exact List.append_ne_nil_of_left_ne_nil h _
  · exact h

end Attribute.Shown

open Attribute (Shown)

/-- Attribute values are put between the quotes `q`, which are escaped inside of them. -/
structure Settings.Wraps (s : Settings) (q : Char) : Prop where
  quote : Reader.isQuote q = true
  wrapper : s.wrapper = [q]
  escapes : s.escapesWrapper = true

theorem Settings.Wraps.ne {s : Settings} {q x : Char} (h : s.Wraps q)
    (hx : Reader.isQuote x = false) : q ≠ x := by
  rintro rfl
  rw [h.quote] at hx
  cases hx

namespace Element

/-- An entry of the dictionary as it is shown, if it is; `value` gives the texts of values. -/
def shownEntry (s : Settings) (value : Value → Text) (a : Text × Value) : Option Shown :=
  if a.1 = ['i', 'd'] ∨ a.1 = "class".toList then none
  else match a.2 with
    | .one .nothing | .one (.flag false) => none
    | .one (.flag true) => some ⟨a.1, if s.format.xhtml then some a.1 else none⟩
    | v => some ⟨a.1, some (value v)⟩

def shownClasses (e : Element) : List Shown :=
  if e.classes.isEmpty then []
  else [⟨"class".toList, some ([' '].intercalate (e.classes.filterMap Scalar.text?))⟩]

def shownId (e : Element) : List Shown :=
  match e.id with
  | some i => if i.isEmpty then [] else [⟨['i', 'd'], some i⟩]
  | none => []

/-- The attributes that an element shows: those of the dictionary in its order, the classes and the
id. -/
def shown (s : Settings) (value : Value → Text) (e : Element) : List Shown :=
  e.attributes.filterMap (shownEntry s value) ++ e.shownClasses ++ e.shownId

/-- A value of the dictionary as it is put between the wrappers. -/
def renderedValue (s : Settings) : Value → Text
  | .one (.text t) => escapeText s t
  | .one _ => []
  | .many items => ((items.filterMap Scalar.text?).map fun t =>
      if s.escapesWrapper ∧ t = s.wrapper then '\\' :: t else t).flatten

/-- The lists of the dictionary and the classes are texts, and names are not empty. -/
structure Writable (e : Element) : Prop where
  names : ∀ a ∈ e.attributes, a.1 ≠ []
  lists : ∀ a ∈ e.attributes, ∀ items, a.2 = .many items → ∀ v ∈ items, ∃ t, v = .text t
  classes : ∀ c ∈ e.classes, ∃ t, c = .text t

variable {s : Settings} {p : Profile} {e : Element} {q : Char}

theorem texts_eq {vs : List Scalar} (h : ∀ v ∈ vs, ∃ t, v = .text t) :
    texts vs = .ok (vs.filterMap Scalar.text?) := by
  rw [← texts_map (vs.filterMap Scalar.text?), map_filterMap_text h]

theorem wrap_eq (hw : s.wrapper = [q]) (t : Text) : wrap s t = q :: (t ++ [q]) := by
  rw [wrap, hw]
  simp

theorem renderEntry_eq (hw : s.wrapper = [q]) (a : Text × Value)
    (h : ∀ items, a.2 = .many items → ∀ v ∈ items, ∃ t, v = .text t) :
    renderEntry s a.1 a.2 = .ok ((shownEntry s (renderedValue s) a).map (Shown.text q)) := by
  obtain ⟨name, value⟩ := a
  unfold renderEntry shownEntry
  by_cases hname : name = ['i', 'd'] ∨ name = "class".toList
  · rw [if_pos hname, if_pos hname]
    rfl
  · rw [if_neg hname, if_neg hname]
    rcases value with (_ | flag | t) | items
    · rfl
    · cases flag with
      | false => rfl
      | true =>
        cases hx : s.format.xhtml with
        | false => rfl
        | true => simp [Shown.text, wrap_eq hw]
    · simp only [wrap_eq hw]
      rfl
    · simp only [escapeItems, texts_eq (h items rfl), wrap_eq hw]
      rfl

/-- The attributes as they are rendered. -/
theorem renderAttributes_eq (hw : s.wrapper = [q]) (h : e.Writable) :
    e.renderAttributes s =
      .ok ([' '].intercalate ((e.shown s (renderedValue s)).map (Shown.text q))) := by
  have hentries := mapM_of_ok fun a ha => renderEntry_eq hw a (h.lists a ha)
  have hid : (match e.id with
      | some i => if i.isEmpty then [] else ["id=".toList ++ wrap s i]
      | none => []) = e.shownId.map (Shown.text q) := by
    rw [shownId]
    split
    · split
      · rfl
      · rw [wrap_eq hw]
        rfl
    · rfl
  have hjoin : (e.attributes.map fun a =>
      (shownEntry s (renderedValue s) a).map (Shown.text q)).filterMap (fun entry => entry) =
        (e.attributes.filterMap (shownEntry s (renderedValue s))).map (Shown.text q) := by
    rw [List.filterMap_map, List.map_filterMap]
    rfl
  rw [renderAttributes, hentries, texts_eq h.classes, shown, List.map_append, List.map_append,
    ← hjoin, ← hid, shownClasses]
  cases e.classes.isEmpty with
  | true => rfl
  | false =>
    simp only [wrap_eq hw]
    rfl

/-! ## Variables in a row of attributes -/

theorem row_eq {as : List Shown} (h : as ≠ []) :
    ' ' :: [' '].intercalate (as.map (Shown.text q)) = Shown.row q as := by
  induction as with
  | nil => exact absurd rfl h
  | cons a as ih =>
    cases as with
    | nil => simp [Shown.row]
    | cons c as =>
      have hrest := ih (by simp)
      rw [Shown.row, List.flatMap_cons, ← Shown.row, ← hrest]
      simp [List.intercalate_cons_cons]

theorem not_mem_row {as : List Shown} (hq : q ≠ '}') (hnames : ∀ a ∈ as, '}' ∉ a.name)
    (hvalues : ∀ a ∈ as, ∀ w ∈ a.value, '}' ∉ w) : '}' ∉ Shown.row q as := by
  intro hmem
  obtain ⟨⟨name, value⟩, ha, hmem⟩ := List.mem_flatMap.mp hmem
  have hname := hnames _ ha
  cases value with
  | none => simp_all [Shown.text]
  | some w =>
    have hw := hvalues _ ha w rfl
    simp_all [Shown.text, hq.symm]

/-- The variables of a row are replaced in each value on its own. -/
theorem replace_row {b : Bool} (hq : Reader.isQuote q = true) {lead : Text} {as : List Shown}
    (hlead : '{' ∉ lead ∧ '}' ∉ lead) (hnames : ∀ a ∈ as, '{' ∉ a.name ∧ '}' ∉ a.name)
    (hapart : as.Pairwise (Shown.Apart b)) :
    InlineVariable.replace b (lead ++ Shown.row q as) =
      lead ++ Shown.row q (as.map (Shown.map (InlineVariable.replace b))) := by
  have hfirm : InlineVariable.Firm b q := InlineVariable.firm_of_isQuote hq
  induction as generalizing lead with
  | nil => simpa [Shown.row] using InlineVariable.replace_of_not_mem hlead.2
  | cons a as ih =>
    obtain ⟨name, value⟩ := a
    have hname := hnames _ (List.mem_cons_self ..)
    have hnames' : ∀ a ∈ as, '{' ∉ a.name ∧ '}' ∉ a.name := fun a ha => hnames a (by simp [ha])
    rw [List.pairwise_cons] at hapart
    cases value with
    | none =>
      have hlead' : '{' ∉ lead ++ ' ' :: name ∧ '}' ∉ lead ++ ' ' :: name := by simp_all
      have hrest := ih hlead' hnames' hapart.2
      simpa [Shown.row, Shown.text, Shown.map] using hrest
    | some v =>
      -- the text is cut at both quotes; the rest has a closing brace in a later value only
      have hlead' : '{' ∉ lead ++ ' ' :: name ++ ['='] ∧ '}' ∉ lead ++ ' ' :: name ++ ['='] := by
        simp_all
      have hrest : InlineVariable.leavesOpen b v = false ∨ '}' ∉ Shown.row q as := by
        cases hv : InlineVariable.leavesOpen b v with
        | false => exact .inl rfl
        | true =>
          exact .inr (not_mem_row hfirm.closing (fun a ha => (hnames' a ha).2)
            fun a ha => hapart.1 a ha v rfl hv)
      have hsplit : lead ++ Shown.row q (⟨name, some v⟩ :: as) =
          (lead ++ ' ' :: name ++ ['=']) ++ q :: (v ++ q :: Shown.row q as) := by
        simp [Shown.row, Shown.text]
      rw [hsplit, InlineVariable.replace_append hfirm
        (.inl (InlineVariable.leavesOpen_of_not_mem hlead'.1)),
        InlineVariable.replace_of_not_mem hlead'.2, InlineVariable.replace_append hfirm hrest,
        ← List.nil_append (Shown.row q as), ih (by simp) hnames' hapart.2]
      simp [Shown.row, Shown.text, Shown.map]

theorem name_of_mem_shown {value : Value → Text} {a : Shown} (h : a ∈ e.shown s value) :
    (∃ v, (a.name, v) ∈ e.attributes) ∨ a.name = "class".toList ∨ a.name = ['i', 'd'] := by
  rcases List.mem_append.mp h with h | h
  · rcases List.mem_append.mp h with h | h
    · obtain ⟨⟨name, v⟩, hmem, hshown⟩ := List.mem_filterMap.mp h
      have hname : a.name = name := by
        unfold shownEntry at hshown
        split at hshown
        · cases hshown
        · split at hshown <;> cases hshown <;> rfl
      exact .inl ⟨v, hname ▸ hmem⟩
    · unfold shownClasses at h
      split at h
      · cases h
      · exact .inr (.inl (List.mem_singleton.mp h ▸ rfl))
  · unfold shownId at h
    split at h
    · split at h
      · cases h
      · exact .inr (.inr (List.mem_singleton.mp h ▸ rfl))
    · cases h

/-- Behind the tag stands the row of the attributes that the element shows. -/
theorem attributesText_eq (hs : p.settings.Wraps q) (h : e.Writable)
    (hbraces : ∀ a ∈ e.attributes, '{' ∉ a.1 ∧ '}' ∉ a.1)
    (hapart : (e.shown p.settings (renderedValue p.settings)).Pairwise
      (Shown.Apart p.inlineEquals)) :
    e.attributesText p = Shown.row q ((e.shown p.settings (renderedValue p.settings)).map
      (Shown.map (InlineVariable.replace p.inlineEquals))) := by
  have hnames : ∀ a ∈ e.shown p.settings (renderedValue p.settings),
      a.name ≠ [] ∧ '{' ∉ a.name ∧ '}' ∉ a.name := by
    intro a ha
    rcases name_of_mem_shown ha with ⟨v, hv⟩ | hname
    · exact ⟨h.names _ hv, hbraces _ hv⟩
    · rcases hname with hname | hname <;> rw [hname] <;> decide
  rw [attributesText, renderAttributes_eq hs.wrapper h]
  generalize e.shown p.settings (renderedValue p.settings) = as at hapart hnames ⊢
  cases as with
  | nil => rfl
  | cons a as =>
    have hrow := row_eq (q := q) (List.cons_ne_nil a as)
    have hne : [' '].intercalate ((a :: as).map (Shown.text q)) ≠ [] := by
      rw [(List.cons.inj hrow).2]
      exact List.append_ne_nil_of_left_ne_nil (Shown.text_ne_nil (hnames a (by simp)).1) _
    obtain ⟨x, t, ht⟩ := List.exists_cons_of_ne_nil hne
    have hspace : InlineVariable.isMark p.inlineEquals ' ' = false :=
      InlineVariable.not_mark_of_white (by decide)
    rw [ht] at hrow ⊢
    have hreplace : InlineVariable.replace p.inlineEquals ([] ++ Shown.row q (a :: as)) = _ :=
      replace_row hs.quote (by simp) (fun a ha => (hnames a ha).2) hapart
    rw [List.nil_append, ← hrow, InlineVariable.replace_step hspace (by decide)] at hreplace
    exact hreplace

/-! ## Cutting a row at its quotes -/

/-- A row falls into its pieces if its values are guarded and do not end in a backslash. -/
theorem cuts_row (hs : s.Wraps q) {lead : Text} {as : List Shown} {before : Char}
    (hlead : q ∉ lead) (hnames : ∀ a ∈ as, q ∉ a.name)
    (hguarded : ∀ a ∈ as, ∀ v ∈ a.value, Text.Guarded q q v ∧ v.getLast? ≠ some '\\') :
    Text.cuts q before (lead ++ Shown.row q as) = Shown.pieces lead as := by
  induction as generalizing lead before with
  | nil => simpa [Shown.row, Shown.pieces] using Text.cuts_eq (Text.guarded_of_not_mem hlead)
  | cons a as ih =>
    obtain ⟨name, value⟩ := a
    have hname := hnames _ (List.mem_cons_self ..)
    have hspace := hs.ne (x := ' ') rfl
    have hequals := hs.ne (x := '=') rfl
    have hrest : ∀ {lead before}, q ∉ lead →
        Text.cuts q before (lead ++ Shown.row q as) = Shown.pieces lead as := fun hlead =>
      ih hlead (fun a ha => hnames a (by simp [ha])) fun a ha => hguarded a (by simp [ha])
    cases value with
    | none =>
      have hlead' : q ∉ lead ++ ' ' :: name := by simp_all
      simpa [Shown.row, Shown.text, Shown.pieces] using @hrest _ before hlead'
    | some v =>
      have hlead' : q ∉ lead ++ ' ' :: name ++ ['='] := by simp_all
      obtain ⟨hv, hend⟩ := hguarded _ (List.mem_cons_self ..) v rfl
      have hend' : v.getLast?.getD q ≠ '\\' := by
        cases hlast : v.getLast? with
        | none => exact hs.ne rfl
        | some x =>
          rintro rfl
          exact hend hlast
      have hsplit : lead ++ Shown.row q (⟨name, some v⟩ :: as) =
          (lead ++ ' ' :: name ++ ['=']) ++ q :: (v ++ q :: Shown.row q as) := by
        simp [Shown.row, Shown.text]
      have hequal : (lead ++ ' ' :: name ++ ['=']).getLast?.getD before ≠ '\\' := by
        rw [List.getLast?_concat, Option.getD_some]
        decide
      rw [hsplit, Text.cuts_append (Text.guarded_of_not_mem hlead') hequal,
        Text.cuts_append hv hend', ← List.nil_append (Shown.row q as), hrest (by simp)]
      rfl

/-! ## Attributes that are kept apart -/

/-- The names of the dictionary are words, its values single ones without template tags, and the
classes texts. -/
structure Plain (e : Element) : Prop where
  names : ∀ a ∈ e.attributes, a.1 ≠ [] ∧ ∀ x ∈ a.1, (Text.isWord x || Attribute.isDash x) = true
  values : ∀ a ∈ e.attributes, ∃ v, a.2 = .one v
  tagless : ∀ a ∈ e.attributes, ∀ t ∈ a.2.texts, ¬ ['{', '%'] <:+: t
  classes : ∀ c ∈ e.classes, ∃ t, c = .text t

/-- The text of a value before anything is escaped. -/
def plainValue (v : Value) : Text := v.texts.flatten

/-- Nothing of one attribute reaches into another: there are no quotes in the classes and the id, no
value ends in a backslash, and no variable goes on from one value to a later one. -/
structure Separate (p : Profile) (q : Char) (e : Element) : Prop where
  classes : ∀ t ∈ e.classes.filterMap Scalar.text?, q ∉ t
  id : ∀ i ∈ e.id, q ∉ i
  endings : ∀ a ∈ e.shown p.settings plainValue, ∀ v ∈ a.value, v.getLast? ≠ some '\\'
  apart : (e.shown p.settings plainValue).Pairwise (Shown.Apart p.inlineEquals)

theorem Plain.writable (h : e.Plain) : e.Writable where
  names a ha := (h.names a ha).1
  lists a ha items hitems := by
    obtain ⟨v, hv⟩ := h.values a ha
    rw [hv] at hitems
    cases hitems
  classes := h.classes

theorem Plain.letters (h : e.Plain) {a : Text × Value} (ha : a ∈ e.attributes) {x : Char}
    (hx : (Text.isWord x || Attribute.isDash x) = false) : x ∉ a.1 := by
  intro hmem
  rw [(h.names a ha).2 x hmem] at hx
  cases hx

theorem not_letter_of_isQuote (h : Reader.isQuote q = true) :
    (Text.isWord q || Attribute.isDash q) = false := by
  rcases Reader.eq_of_isQuote h with rfl | rfl <;> decide

theorem Plain.quote_not_mem_name (hs : s.Wraps q) (h : e.Plain) {value : Value → Text} {a : Shown}
    (ha : a ∈ e.shown s value) : q ∉ a.name := by
  rcases name_of_mem_shown ha with ⟨v, hv⟩ | hname
  · exact h.letters hv (not_letter_of_isQuote hs.quote)
  · have hall : a.name.all (fun x => !Reader.isQuote x) = true := by
      rcases hname with hname | hname <;> rw [hname] <;> decide
    intro hq
    have hquote := List.all_eq_true.mp hall q hq
    rw [hs.quote] at hquote
    cases hquote

theorem Plain.shownEntry_eq (hs : s.Wraps q) (h : e.Plain) {a : Text × Value}
    (ha : a ∈ e.attributes) :
    shownEntry s (renderedValue s) a =
      (shownEntry s plainValue a).map (Shown.map (Text.guard q)) := by
  have hname : Text.guard q a.1 = a.1 :=
    Text.guard_of_not_mem (h.letters ha (not_letter_of_isQuote hs.quote))
  obtain ⟨v, hv⟩ := h.values a ha
  unfold shownEntry
  split
  · rfl
  · rw [hv]
    rcases v with _ | flag | t
    · rfl
    · cases flag with
      | false => rfl
      | true => cases hx : s.format.xhtml <;> simp [Shown.map, hname]
    · have hescape : escapeText s t = Text.guard q t := by
        have htext : t ∈ a.2.texts := by simp [hv, Value.texts, Scalar.text?]
        rw [escapeText, hs.escapes, if_pos rfl, hs.wrapper]
        exact Escape.quotesFrom_eq_guard (h.tagless a ha t htext)
      simp [renderedValue, plainValue, Value.texts, Scalar.text?, Shown.map, hescape]

theorem Separate.shownClasses_eq (hs : p.settings.Wraps q) (hsep : e.Separate p q) :
    e.shownClasses.map (Shown.map (Text.guard q)) = e.shownClasses := by
  have hjoined : q ∉ [' '].intercalate (e.classes.filterMap Scalar.text?) := by
    intro hmem
    rcases mem_intercalate hmem with hspace | ⟨t, ht, hq⟩
    · exact hs.ne (x := ' ') rfl (List.mem_singleton.mp hspace)
    · exact hsep.classes t ht hq
  unfold shownClasses
  split
  · rfl
  · simp [Shown.map, Text.guard_of_not_mem hjoined]

theorem Separate.shownId_eq (hsep : e.Separate p q) :
    e.shownId.map (Shown.map (Text.guard q)) = e.shownId := by
  unfold shownId
  split
  · next i hi =>
    split
    · rfl
    · simp [Shown.map, Text.guard_of_not_mem (hsep.id i hi)]
  · rfl

/-- What is rendered are the values with a backslash before each quote. -/
theorem shown_renderedValue (hs : p.settings.Wraps q) (h : e.Plain) (hsep : e.Separate p q) :
    e.shown p.settings (renderedValue p.settings) =
      (e.shown p.settings plainValue).map (Shown.map (Text.guard q)) := by
  rw [shown, shown, List.map_append, List.map_append, hsep.shownClasses_eq hs, hsep.shownId_eq,
    List.map_filterMap, List.filterMap_congr fun a ha => h.shownEntry_eq hs ha]

/-- The attributes in the opening tag of an element, cut at the quotes that no backslash stands
before, are those that the element shows, each with its own value: quotes have a backslash before
them and variables are replaced. -/
theorem attributes_separate (hs : p.settings.Wraps q) (h : e.Plain) (hsep : e.Separate p q)
    (indent breaks : Text) (hasChildren : Bool) (before : Char) :
    Content.openingTag p indent breaks e hasChildren = .ok (indent ++ '<' :: e.tag ++
      e.attributesText p ++ Content.openingEnd p breaks e hasChildren) ∧
    Text.cuts q before (e.attributesText p) = Shown.pieces [] ((e.shown p.settings plainValue).map
      (Shown.map fun v => InlineVariable.replace p.inlineEquals (Text.guard q v))) := by
  have hfirm : InlineVariable.Firm p.inlineEquals q := InlineVariable.firm_of_isQuote hs.quote
  have hbraces : ∀ a ∈ e.attributes, '{' ∉ a.1 ∧ '}' ∉ a.1 := fun a ha =>
    ⟨h.letters ha (by decide), h.letters ha (by decide)⟩
  have hrendered := shown_renderedValue hs h hsep
  constructor
  · have hrender := renderAttributes_eq hs.wrapper h.writable
    obtain ⟨t, ht⟩ : ∃ t, Content.openingTag p indent breaks e hasChildren = .ok t := by
      rw [Content.openingTag, hrender]
      exact ⟨_, rfl⟩
    rw [ht, Content.openingTag_eq ht]
  · have hapart : (e.shown p.settings (renderedValue p.settings)).Pairwise
        (Shown.Apart p.inlineEquals) := by
      rw [hrendered, List.pairwise_map]
      exact hsep.apart.imp fun hac => hac.guard hfirm
    have hmap : Shown.map (InlineVariable.replace p.inlineEquals) ∘ Shown.map (Text.guard q) =
        Shown.map fun v => InlineVariable.replace p.inlineEquals (Text.guard q v) :=
      funext fun a => a.map_map _ _
    rw [attributesText_eq hs h.writable hbraces hapart, hrendered, List.map_map, hmap,
      ← List.nil_append (Shown.row q _)]
    refine cuts_row hs (by simp) (fun a ha => ?_) fun a ha v hv => ?_
    · obtain ⟨c, hc, rfl⟩ := List.mem_map.mp ha
      have hname : q ∉ c.name := h.quote_not_mem_name hs hc
      exact hname
    · obtain ⟨c, hc, rfl⟩ := List.mem_map.mp ha
      obtain ⟨u, hu, rfl⟩ := Shown.exists_of_map hv
      rw [InlineVariable.getLast?_replace, Text.getLast?_guard]
      exact ⟨InlineVariable.guarded_replace hfirm (Text.guarded_guard (hs.ne rfl) u),
        hsep.endings c hc u hu⟩

def mixedAttributes : Element where
  tag := ['p']
  id := some "n\"#\x7b".toList
  classes := [.text ['k'], .text "#\x7bm\x7d".toList]
  attributes := [("data-a".toList, .one (.text "x'y #\x7b z'\x7d".toList)),
    (['b'], .one (.flag true)), (['c'], .one .nothing), ("class".toList, .one (.text ['k'])),
    (['d'], .one (.text ['\x7d']))]

theorem attributes_separate_mixed :
    ({} : Settings).Wraps '\'' ∧ mixedAttributes.Plain ∧ mixedAttributes.Separate {} '\'' ∧
    Content.openingTag {} [] [] mixedAttributes false =
      .ok ("<p".toList ++ mixedAttributes.attributesText {} ++ ['>']) ∧
    Text.cuts '\'' ' ' (mixedAttributes.attributesText {}) = [" data-a=".toList,
      "x\\'y \x7b\x7b z\\' \x7d\x7d".toList, " b d=".toList, ['\x7d'], " class=".toList,
      "k \x7b\x7b m \x7d\x7d".toList, " id=".toList, "n\"#\x7b".toList, []] := by
  have hwraps : ({} : Settings).Wraps '\'' := ⟨by decide, rfl, rfl⟩
  have hplain : mixedAttributes.Plain := by
    refine ⟨fun a ha => ?_, fun a ha => ?_, by decide, fun c hc => ?_⟩
    · simp only [mixedAttributes, List.mem_cons, List.not_mem_nil, or_false] at ha
      rcases ha with rfl | rfl | rfl | rfl | rfl <;>
        exact ⟨by decide, List.all_eq_true.mp (by decide)⟩
    · simp only [mixedAttributes, List.mem_cons, List.not_mem_nil, or_false] at ha
      rcases ha with rfl | rfl | rfl | rfl | rfl <;> exact ⟨_, rfl⟩
    · simp only [mixedAttributes, List.mem_cons, List.not_mem_nil, or_false] at hc
      rcases hc with rfl | rfl <;> exact ⟨_, rfl⟩
  have hseparate : mixedAttributes.Separate {} '\'' :=
    ⟨by decide, by decide, by decide, by decide⟩
  obtain ⟨hopening, hcuts⟩ := attributes_separate hwraps hplain hseparate [] [] false ' '
  refine ⟨hwraps, hplain, hseparate, hopening, hcuts.trans ?_⟩
  decide +kernel

def ofValues (classes : List Text) (values : List (Text × Text)) : Element where
  tag := ['p']
  id := none
  classes := classes.map .text
  attributes := values.map fun a => (a.1, .one (.text a.2))

/-- Attributes that run into each other: a class with a quote in it, a value that ends in a
backslash, and a variable that begins in one value and ends in the next. -/
theorem attributes_merged :
    Text.cuts '\'' ' ' ((ofValues ["a'b".toList] []).attributesText {}) =
      [" class=".toList, ['a'], ['b'], []] ∧
    Text.cuts '\'' ' ' ((ofValues [] [(['a'], ['\\']), (['b'], ['c'])]).attributesText {}) =
      [" a=".toList, "\\' b=".toList, ['c'], []] ∧
    Text.cuts '\'' ' '
        ((ofValues [] [(['a'], "#\x7b".toList), (['b'], ['\x7d'])]).attributesText {}) =
      [" a=".toList, "\x7b\x7b ".toList, " b=".toList, " \x7d\x7d".toList, []] ∧
    compile {} "%p\x7bclass: \"a'b\"\x7d".toList = .ok "<p class='a'b'></p>\n".toList ∧
    compile {} "%p\x7ba: \"#\x7b\", b: \"\x7d\"\x7d".toList =
      .ok "<p a='\x7b\x7b ' b=' \x7d\x7d'></p>\n".toList := by
  decide +kernel

end Element

end Haml
