import Haml.Element.Reader
import Haml.Proofs.Reading.Writings

/-!
Elements as they are written. A `Spelling` is a tag, a row of shortcuts, some dictionaries in any of
their writings, the flags and the inline content; `Spelling.text` puts these one after another, and
`Spelling.element` says what they mean. Main statement: the element reader passes over just this
text and gives the element that it means.
-/
namespace Haml

/-! ## Values that are texts -/

def Value.texts : Value → List Text
  | .one v => v.text?.toList
  | .many vs => vs.filterMap Scalar.text?

def Value.IsText : Value → Prop
  | .one v => ∃ t, v = .text t
  | .many vs => ∀ v ∈ vs, ∃ t, v = .text t

namespace Attribute

def Atom.isText : Atom → Bool
  | keyword _ _ _ => false
  | _ => true

def Assignment.IsText : Assignment → Prop
  | absent => False
  | one a => a.isText = true
  | list as => ∀ a ∈ as, a.isText = true

theorem Atom.exists_text {a : Atom} (h : a.isText = true) (s : Settings) :
    ∃ t, a.value s = .text t := by
  cases a with
  | keyword k w spelling => cases h
  | number first more digit digits => exact ⟨_, rfl⟩
  | var w ne_nil word start plain => exact ⟨_, rfl⟩
  | string q t quote nul ending => exact ⟨_, rfl⟩

theorem Assignment.IsText.value {v : Assignment} (h : v.IsText) (s : Settings) :
    (v.value s).IsText := by
  cases v with
  | absent => exact False.elim h
  | one a => exact a.exists_text h s
  | list as =>
    intro v hv
    obtain ⟨a, ha, rfl⟩ := List.mem_map.mp hv
    exact a.exists_text (h a ha) s

end Attribute

namespace Element

open Attribute Reader

/-! ## Spellings -/

/-- A word that tags, ids and classes are named by. -/
structure Name where
  text : Text
  ne_nil : text ≠ []
  letters : ∀ x ∈ text, (Text.isWord x || isDash x) = true

/-- The tag of an element, if it has one: a word, or two with a colon between. -/
inductive Tag where
  | absent
  | plain (name : Name)
  | qualified (space name : Name)

namespace Tag

def name? : Tag → Option Text
  | absent => none
  | plain name => some name.text
  | qualified space name => some (space.text ++ ':' :: name.text)

def text : Tag → Text
  | absent => []
  | plain name => '%' :: name.text
  | qualified space name => '%' :: (space.text ++ ':' :: name.text)

end Tag

/-- A shortcut for an id or for a class. -/
inductive Sigil where
  | toId (name : Name)
  | toClass (name : Name)

namespace Sigil

def text : Sigil → Text
  | toId name => '#' :: name.text
  | toClass name => '.' :: name.text

def id? : Sigil → Option Text
  | toId name => some name.text
  | toClass _ => none

def class? : Sigil → Option Text
  | toId _ => none
  | toClass name => some name.text

end Sigil

/-- A dictionary of an element as it is written. Ids and classes are texts or lists of texts. -/
structure Row where
  writing : Writing
  entries : List Entry
  distinct : (entries.map (·.key)).Nodup
  names : ∀ e ∈ entries, e.key = ['i', 'd'] ∨ e.key = "class".toList → e.assignment.IsText
  text : Text
  spelled : Spelled writing entries text

/-- The parts of an element as it is written. Without a tag there are shortcuts. -/
structure Spelling where
  tag : Tag
  shortcuts : List Sigil
  started : tag = .absent → shortcuts ≠ []
  rows : List Row
  outer : Bool
  inner : Bool
  slash : Bool
  equals : Bool
  inline : Text
  unbroken : '\n' ∉ inline

def flag (b : Bool) (x : Char) : Text := if b then [x] else []

/-- All ids as one, if there are any. -/
def joined (ids : List Text) : Option Text :=
  if ids.isEmpty then none else some (['_'].intercalate ids)

def textsAt (attributes : Attributes) (key : Text) : List Text :=
  ((attributes.get? key).map Value.texts).getD []

namespace Spelling

/-- The element as it is written: its parts one after another, the inline content after a space. -/
def text (e : Spelling) : Text :=
  e.tag.text ++ (e.shortcuts.flatMap Sigil.text ++ (e.rows.flatMap Row.text ++
    (flag e.outer '>' ++ (flag e.inner '<' ++ (flag e.slash '/' ++ (flag e.equals '=' ++
      ' ' :: (e.inline ++ ['\n'])))))))

/-- The dictionaries merged from left to right. -/
def attributes (s : Settings) (e : Spelling) : Attributes :=
  Dictionary.merged (e.rows.flatMap fun r => Entry.dictionary s r.entries)

/-- The last id of the shortcuts and then those of the dictionaries. -/
def ids (s : Settings) (e : Spelling) : List Text :=
  (e.shortcuts.filterMap Sigil.id?).getLast?.toList ++ textsAt (e.attributes s) ['i', 'd']

/-- The classes of the dictionaries and then those of the shortcuts. -/
def classes (s : Settings) (e : Spelling) : List Text :=
  textsAt (e.attributes s) "class".toList ++ e.shortcuts.filterMap Sigil.class?

def element (s : Settings) (e : Spelling) : Element where
  tag := e.tag.name?.getD "div".toList
  id := joined (e.ids s)
  classes := (e.classes s).map .text
  attributes := e.attributes s
  trimsOuter := e.outer
  trimsInner := e.inner
  selfClosing := e.slash || e.tag.name?.any voidTags.contains
  isVariable := e.equals
  inline := some (Text.trim e.inline)
  trimmed := by simp [Text.trim_trim]

end Spelling

/-! ## What a part is followed by -/

def Begins (cs : List Char) (t : Text) : Prop := ∃ x ∈ cs, t.head? = some x

variable {s : Settings} {block : Text → Except Failure Text} {cs : List Char} {t rest : Text}

theorem Begins.append (h : Begins cs t) (u : Text) : Begins cs (t ++ u) := by
  obtain ⟨x, hx, hhead⟩ := h
  obtain ⟨t, rfl⟩ := List.head?_eq_some_iff.mp hhead
  exact ⟨x, hx, rfl⟩

theorem Begins.ne {x : Char} (h : Begins cs t) (hx : x ∉ cs) : t.head? ≠ some x := by
  obtain ⟨y, hy, hhead⟩ := h
  rw [hhead]
  rintro ⟨⟩
  exact hx hy

theorem Begins.flag (h : Begins cs t) (b : Bool) (x : Char) :
    Begins (x :: cs) (Element.flag b x ++ t) := by
  cases b with
  | true => exact ⟨x, by simp, rfl⟩
  | false =>
    obtain ⟨y, hy, hhead⟩ := h
    exact ⟨y, by simp [hy], hhead⟩

theorem reads_flag {x : Char} (h : Begins cs rest) (hx : x ∉ cs) (b : Bool) :
    Reads (accept x) (flag b x) b rest := by
  cases b with
  | true => exact reads_accept x rest
  | false => exact reads_accept_none (h.ne hx)

def nameEnds : List Char := ['#', '.', '\x7b', '(', '>', '<', '/', '=', ' ']

theorem Name.reads (n : Name) (h : ∀ x, rest.head? = some x → (Text.isWord x || isDash x) = false) :
    Reads (word isDash) n.text n.text rest :=
  reads_word n.ne_nil n.letters h

theorem Begins.not_letter (h : Begins nameEnds rest) :
    ∀ x, rest.head? = some x → (Text.isWord x || isDash x) = false := by
  have hall : ∀ y ∈ nameEnds, (Text.isWord y || isDash y) = false :=
    List.all_iff_forall_prop.mp (by decide)
  obtain ⟨y, hy, hhead⟩ := h
  intro x hx
  rw [hhead] at hx
  cases hx
  exact hall y hy

/-! ## Reading the parts -/

theorem reads_tagName_plain (n : Name) (h : Begins nameEnds rest) :
    Reads tagName n.text n.text rest := by
  refine (n.reads h.not_letter).last ((reads_accept_none (h.ne (by decide))).look ?_)
  exact .ite_neg (by simp) (reads_pure _ _)

theorem reads_tagName_qualified (n m : Name) (h : Begins nameEnds rest) :
    Reads tagName (n.text ++ ':' :: m.text) (n.text ++ ':' :: m.text) rest := by
  have hcolon : ∀ x, (':' :: m.text ++ rest).head? = some x →
      (Text.isWord x || isDash x) = false := by
    rintro x ⟨⟩
    decide
  refine (n.reads hcolon).bind ((reads_accept ':' _).bind (.ite_pos rfl ?_))
  exact (m.reads h.not_letter).map _

/-- Without a tag an element starts with its first shortcut. -/
theorem reads_opening_absent (c : Sigil) (rest : Text) :
    Reads opening [] (none, true) (c.text ++ rest) := by
  cases c with
  | toId n =>
    refine (reads_peek rfl).look (.ite_neg (by decide) (.ite_neg (by decide) ?_))
    exact .ite_pos rfl (reads_pure _ _)
  | toClass n =>
    obtain ⟨y, w, hw⟩ := List.exists_cons_of_ne_nil n.ne_nil
    have hy : (Text.isWord y || isDash y) = true := n.letters y (by simp [hw])
    have hbare : Reads isBarePoint [] false ([] ++ ('.' :: n.text ++ rest)) := by
      intro passed
      simp [isBarePoint, Cursor.ahead, hw, hy]
    refine (reads_peek rfl).look (.ite_neg (by decide) (.ite_pos rfl ?_))
    exact hbare.look (.ite_neg Bool.false_ne_true (reads_pure _ _))

theorem reads_opening {tag : Tag} {u : Text} (h : Begins nameEnds (u ++ rest))
    (habsent : tag = .absent → ∃ (c : Sigil) (v : Text), u = c.text ++ v) :
    Reads opening tag.text (tag.name?, true) (u ++ rest) := by
  cases tag with
  | absent =>
    obtain ⟨c, v, rfl⟩ := habsent rfl
    rw [List.append_assoc]
    exact reads_opening_absent c (v ++ rest)
  | plain n =>
    refine (reads_peek rfl).look (.ite_pos rfl ?_)
    exact (reads_skip '%' _).bind ((reads_tagName_plain n h).map _)
  | qualified n m =>
    refine (reads_peek rfl).look (.ite_pos rfl ?_)
    exact (reads_skip '%' _).bind ((reads_tagName_qualified n m h).map _)

theorem shortcutTurn_text (c : Sigil) (h : Begins nameEnds rest) (id : Option Text)
    (classes : List Text) :
    Reads (shortcutTurn (id, classes.map .text)) c.text
      (.inl (c.id?.or id, (classes ++ c.class?.toList).map .text)) rest := by
  cases c with
  | toId n =>
    rw [Sigil.class?, Option.toList_none, List.append_nil]
    refine (reads_accept '#' _).bind (.ite_pos rfl ?_)
    exact (n.reads h.not_letter).last (reads_pure _ _)
  | toClass n =>
    rw [Sigil.class?, Option.toList_some, List.map_append]
    refine (reads_accept_none (by simp [Sigil.text])).look (.ite_neg Bool.false_ne_true ?_)
    refine (reads_accept '.' _).bind (.ite_pos rfl ?_)
    exact (n.reads h.not_letter).last (reads_pure _ _)

theorem Sigil.begins (c : Sigil) : Begins nameEnds c.text := by
  cases c with
  | toId n => exact ⟨'#', by decide, rfl⟩
  | toClass n => exact ⟨'.', by decide, rfl⟩

def shortcutEnds : List Char := ['\x7b', '(', '>', '<', '/', '=', ' ']

theorem Begins.name (h : Begins shortcutEnds t) : Begins nameEnds t := by
  obtain ⟨x, hx, hhead⟩ := h
  refine ⟨x, ?_, hhead⟩
  simp only [nameEnds, List.mem_cons]
  exact .inr (.inr (by simpa [shortcutEnds] using hx))

theorem begins_shortcuts (cs : List Sigil) (h : Begins shortcutEnds t) :
    Begins nameEnds (cs.flatMap Sigil.text ++ t) := by
  cases cs with
  | nil => exact h.name
  | cons c cs =>
    rw [List.flatMap_cons, List.append_assoc]
    exact c.begins.append _

/-- The shortcuts: of the ids the last one stays, and the classes are gathered. -/
theorem reads_shortcuts (h : Begins shortcutEnds rest) (cs : List Sigil) {steps : Text}
    (hsteps : cs.length < steps.length) (id : Option Text) (classes : List Text) :
    Reads (iterate shortcutTurn steps (id, classes.map .text)) (cs.flatMap Sigil.text)
      ((cs.filterMap Sigil.id?).getLast?.or id,
        (classes ++ cs.filterMap Sigil.class?).map .text) rest := by
  induction cs generalizing steps id classes with
  | nil =>
    obtain ⟨x, steps, rfl⟩ := List.exists_cons_of_length_pos (Nat.zero_lt_of_lt hsteps)
    refine .iterate_last x ?_
    simp only [List.flatMap_nil, List.filterMap_nil, List.getLast?_nil, Option.none_or,
      List.append_nil]
    refine (reads_accept_none (h.ne (by decide))).look (.ite_neg Bool.false_ne_true ?_)
    refine (reads_accept_none (h.ne (by decide))).look (.ite_neg Bool.false_ne_true ?_)
    exact reads_pure _ _
  | cons c cs ih =>
    obtain ⟨x, steps, rfl⟩ := List.exists_cons_of_length_pos (Nat.zero_lt_of_lt hsteps)
    have hturn := shortcutTurn_text c (begins_shortcuts cs h) id classes
    have hloop := hturn.iterate x (ih (Nat.lt_of_succ_lt_succ hsteps) _ _)
    have hid : ((c :: cs).filterMap Sigil.id?).getLast?.or id =
        (cs.filterMap Sigil.id?).getLast?.or (c.id?.or id) := by
      cases c with
      | toId n =>
        show (n.text :: cs.filterMap Sigil.id?).getLast?.or id = _
        rw [List.getLast?_cons]
        cases (cs.filterMap Sigil.id?).getLast? <;> rfl
      | toClass n => rfl
    have hclass : (c :: cs).filterMap Sigil.class? =
        c.class?.toList ++ cs.filterMap Sigil.class? := by
      cases c <;> rfl
    rw [hid, hclass, ← List.append_assoc, List.flatMap_cons]
    exact hloop

/-! ## Reading the dictionaries -/

theorem Row.begins (r : Row) : Begins ['\x7b', '('] r.text := by
  obtain ⟨writing, entries, distinct, names, text, ⟨hb, h⟩⟩ := r
  cases writing with
  | arrow => exact ⟨'\x7b', by decide, rfl⟩
  | colon => exact ⟨'\x7b', by decide, rfl⟩
  | equals => exact ⟨'(', by decide, rfl⟩

theorem dictionaryTurn_row (r : Row) (es : List (Text × Value)) :
    Reads (dictionaryTurn s block (Dictionary.merged es)) r.text
      (.inl (Dictionary.merged (es ++ Entry.dictionary s r.entries))) rest := by
  have hread : Reads (dictionary s block) r.text (Entry.dictionary s r.entries) rest :=
    reads_spelled r.distinct r.spelled
  have hrow : Reads (do return (.inl ((Dictionary.merged es).update (← dictionary s block)) :
      Attributes ⊕ Attributes)) r.text
      (.inl (Dictionary.merged (es ++ Entry.dictionary s r.entries))) rest := by
    rw [← Dictionary.update_merged]
    exact hread.last (reads_pure _ _)
  obtain ⟨x, hx, hhead⟩ := r.begins.append rest
  have hpeek := reads_peek? (r.text ++ rest)
  rw [hhead] at hpeek
  refine hpeek.look ?_
  simp only [List.mem_cons, List.not_mem_nil, or_false] at hx
  rcases hx with rfl | rfl <;> exact hrow

def rowEnds : List Char := ['>', '<', '/', '=', ' ']

theorem reads_rows (h : Begins rowEnds rest) (rows : List Row) {steps : Text}
    (hsteps : rows.length < steps.length) (es : List (Text × Value)) :
    Reads (iterate (dictionaryTurn s block) steps (Dictionary.merged es)) (rows.flatMap Row.text)
      (Dictionary.merged (es ++ rows.flatMap fun r => Entry.dictionary s r.entries)) rest := by
  induction rows generalizing steps es with
  | nil =>
    obtain ⟨x, steps, rfl⟩ := List.exists_cons_of_length_pos (Nat.zero_lt_of_lt hsteps)
    rw [List.flatMap_nil, List.flatMap_nil, List.append_nil]
    refine .iterate_last x ((reads_peek? rest).look ?_)
    have hbrace := h.ne (x := '\x7b') (by decide)
    have hparen := h.ne (x := '(') (by decide)
    split
    · next h => exact absurd h hbrace
    · next h => exact absurd h hparen
    · exact reads_pure _ _
  | cons r rows ih =>
    obtain ⟨x, steps, rfl⟩ := List.exists_cons_of_length_pos (Nat.zero_lt_of_lt hsteps)
    rw [List.flatMap_cons, List.flatMap_cons, ← List.append_assoc]
    exact (dictionaryTurn_row r es).iterate x (ih (Nat.lt_of_succ_lt_succ hsteps) _)

theorem Begins.shortcut (h : Begins rowEnds t) : Begins shortcutEnds t := by
  obtain ⟨x, hx, hhead⟩ := h
  refine ⟨x, ?_, hhead⟩
  simp only [shortcutEnds, List.mem_cons]
  exact .inr (.inr (by simpa [rowEnds] using hx))

theorem begins_rows (rows : List Row) (h : Begins rowEnds t) :
    Begins shortcutEnds (rows.flatMap Row.text ++ t) := by
  cases rows with
  | nil => exact h.shortcut
  | cons r rows =>
    rw [List.flatMap_cons, List.append_assoc]
    obtain ⟨x, hx, hhead⟩ := r.begins.append (rows.flatMap Row.text ++ t)
    refine ⟨x, ?_, hhead⟩
    simp only [List.mem_cons, List.not_mem_nil, or_false] at hx
    rcases hx with rfl | rfl <;> decide

/-! ## Building the element -/

theorem texts_map (ts : List Text) : texts (ts.map .text) = .ok ts := by
  induction ts with
  | nil => rfl
  | cons t ts ih =>
    rw [texts, List.map_cons, List.mapM_cons, ← texts, ih]
    rfl

theorem mergeIds_map (ts : List Text) : mergeIds (ts.map .text) = .ok (joined ts) := by
  cases ts with
  | nil => rfl
  | cons t ts =>
    rw [mergeIds, texts_map]
    rfl

theorem map_filterMap_text {vs : List Scalar} (h : ∀ v ∈ vs, ∃ t, v = .text t) :
    (vs.filterMap Scalar.text?).map .text = vs := by
  induction vs with
  | nil => rfl
  | cons v vs ih =>
    obtain ⟨t, rfl⟩ := h v (by simp)
    exact congrArg (Scalar.text t :: ·) (ih fun v hv => h v (by simp [hv]))

theorem dictionaryIds_eq {d : Attributes} (h : ∀ v, d.get? ['i', 'd'] = some v → v.IsText) :
    dictionaryIds d = (textsAt d ['i', 'd']).map .text := by
  unfold dictionaryIds textsAt
  cases hv : d.get? ['i', 'd'] with
  | none => rfl
  | some v =>
    have htext := h v hv
    cases v with
    | one v =>
      obtain ⟨t, rfl⟩ := htext
      rfl
    | many vs => exact (map_filterMap_text htext).symm

theorem dictionaryClasses_eq {d : Attributes} (h : ∀ v, d.get? "class".toList = some v → v.IsText) :
    dictionaryClasses d = (textsAt d "class".toList).map .text := by
  unfold dictionaryClasses textsAt
  cases hv : d.get? "class".toList with
  | none => rfl
  | some v =>
    have htext := h v hv
    cases v with
    | one v =>
      obtain ⟨t, rfl⟩ := htext
      rfl
    | many vs => exact (map_filterMap_text htext).symm

theorem Sigil.id?_ne_nil {c : Sigil} {i : Text} (h : c.id? = some i) : i ≠ [] := by
  cases c with
  | toId n =>
    obtain rfl := Option.some.inj h
    exact n.ne_nil
  | toClass n => cases h

theorem Tag.name?_ne_nil (tag : Tag) : tag.name? ≠ some [] := by
  cases tag with
  | absent => simp [Tag.name?]
  | plain n => simpa [Tag.name?] using n.ne_nil
  | qualified n m => simp [Tag.name?]

theorem build_texts {tag id : Option Text} {classes ids' classes' : List Text} {d : Attributes}
    (htag : tag ≠ some []) (hid : id ≠ some []) (hids : dictionaryIds d = ids'.map .text)
    (hclasses : dictionaryClasses d = classes'.map .text) :
    build tag id (classes.map .text) d = .ok {
      tag := tag.getD "div".toList
      id := joined (id.toList ++ ids')
      classes := (classes' ++ classes).map .text
      attributes := d } := by
  unfold build
  rw [hids, hclasses, ← List.map_append]
  have hids₁ := mergeIds_map ids'
  have hids₂ : ∀ i, mergeIds (Scalar.text i :: ids'.map .text) = .ok (joined (i :: ids')) :=
    fun i => mergeIds_map (i :: ids')
  rcases tag with _ | _ | ⟨x, t⟩ <;> rcases id with _ | _ | ⟨y, i⟩ <;>
    simp_all [bind, Except.bind, pure, Except.pure]

namespace Spelling

/-- Ids and classes of the merged dictionaries are texts. -/
theorem isText_attributes {e : Spelling} {key : Text} {v : Value}
    (hkey : key = ['i', 'd'] ∨ key = "class".toList) (h : (e.attributes s).get? key = some v) :
    v.IsText := by
  have hmem := Dictionary.mem_of_get?_merged h
  obtain ⟨r, hr, hmem⟩ := List.mem_flatMap.mp hmem
  obtain ⟨entry, hentry, heq⟩ := List.mem_map.mp hmem
  obtain ⟨rfl, rfl⟩ := Prod.mk.inj heq
  exact (r.names entry hentry hkey).value s

theorem build_eq (s : Settings) (e : Spelling) :
    build e.tag.name? (e.shortcuts.filterMap Sigil.id?).getLast?
        ((e.shortcuts.filterMap Sigil.class?).map .text) (e.attributes s) =
      .ok {
        tag := e.tag.name?.getD "div".toList
        id := joined (e.ids s)
        classes := (e.classes s).map .text
        attributes := e.attributes s } := by
  refine build_texts e.tag.name?_ne_nil (fun hlast => ?_)
    (dictionaryIds_eq fun v => isText_attributes (.inl rfl))
    (dictionaryClasses_eq fun v => isText_attributes (.inr rfl))
  obtain ⟨c, -, hc⟩ := List.mem_filterMap.mp (List.mem_of_getLast? hlast)
  exact c.id?_ne_nil hc rfl

end Spelling

theorem length_le_flatMap {α : Type} {f : α → Text} (h : ∀ a, f a ≠ []) (as : List α) :
    as.length ≤ (as.flatMap f).length := by
  induction as with
  | nil => simp
  | cons a as ih =>
    have := List.length_pos_iff.mpr (h a)
    rw [List.flatMap_cons, List.length_cons, List.length_append]
    omega

theorem Begins.ne_nil (h : Begins cs t) : t ≠ [] := by
  obtain ⟨x, -, hhead⟩ := h
  exact ne_nil_of_head? hhead

theorem reads_inline {inline : Text} (h : '\n' ∉ inline) :
    Reads line? (' ' :: (inline ++ ['\n'])) (some (' ' :: inline)) rest := by
  have hline : '\n' ∉ ' ' :: inline := by simpa using h
  refine (reads_atEnd (by simp)).look (.ite_neg Bool.false_ne_true ?_)
  exact (reads_line hline rest).map some

/-- The parts of an element are read one after another. -/
theorem reads_element (e : Spelling) : Reads (element s block) e.text (e.element s) rest := by
  -- what each part is followed by, from the last one to the first
  have hline : Begins [' '] (' ' :: (e.inline ++ ['\n'])) := ⟨' ', by simp, rfl⟩
  have hequals := hline.flag e.equals '='
  have hslash := hequals.flag e.slash '/'
  have hinner := hslash.flag e.inner '<'
  have houter := hinner.flag e.outer '>'
  have hrows := begins_rows e.rows houter
  have hshortcuts := begins_shortcuts e.shortcuts hrows
  refine (reads_opening (hshortcuts.append rest) fun htag => ?_).bind ?_
  · obtain ⟨c, cs, hcs⟩ := List.exists_cons_of_ne_nil (e.started htag)
    rw [hcs, List.flatMap_cons, List.append_assoc]
    exact ⟨c, _, rfl⟩
  -- every shortcut and every dictionary has a character, so the loops have steps enough
  refine .ite_pos rfl ((reads_allowance _).look ?_)
  rw [shortcuts_eq]
  refine (reads_shortcuts (hrows.append rest) e.shortcuts ?_ none []).bind ?_
  · have := length_le_flatMap (fun c : Sigil => c.begins.ne_nil) e.shortcuts
    simp only [List.length_cons, List.length_append]
    omega
  rw [Option.or_none]
  refine (reads_allowance _).look ?_
  rw [dictionaries_eq]
  refine (reads_rows (houter.append rest) e.rows ?_ []).bind ?_
  · have := length_le_flatMap (fun r : Row => r.begins.ne_nil) e.rows
    simp only [List.length_cons, List.length_append]
    omega
  refine (reads_flag (hinner.append rest) (by decide) e.outer).bind ?_
  refine (reads_flag (hslash.append rest) (by decide) e.inner).bind ?_
  refine (reads_flag (hequals.append rest) (by decide) e.slash).bind ?_
  refine (reads_flag (hline.append rest) (by decide) e.equals).bind ?_
  refine (reads_inline e.unbroken).last ?_
  have hbuild := e.build_eq s
  simp only [Spelling.attributes] at hbuild
  rw [List.nil_append, List.nil_append, hbuild]
  exact reads_pure _ _

/-- Every list of entries can be written as a dictionary in each writing, and a text without
backslashes, line ends and its quote stands between quotes as it is. Whatever parts an element is
written with, the reader passes over just them and gives what they mean together. -/
theorem element_spellings (s : Settings) (block : Text → Except Failure Text) :
    (∀ w es, ∃ t, Spelled w es t) ∧
    (∀ (q : Char) (t : Text), (∀ x ∈ t, x ∉ [q, '\\', '\n', '\r']) →
      Text.quoted q t = q :: t ++ [q]) ∧
    ∀ (e : Spelling) (passed rest : Text), element s block ⟨passed, e.text ++ rest, 0, 0⟩ =
      .ok (e.element s) ⟨e.text.reverse ++ passed, rest, 0, 0⟩ := by
  refine ⟨fun w es => ?_, fun q t ht => Text.quoted_eq ht,
    fun e passed rest => reads_element e passed⟩
  obtain ⟨t, h⟩ := exists_entries w es
  exact ⟨_, (Written.brackets blanks_nil h).spelled⟩

def Name.ofText (t : Text) (h : t ≠ [] ∧ t.all (fun x => Text.isWord x || isDash x) = true) :
    Name :=
  ⟨t, h.1, List.all_eq_true.mp h.2⟩

def letter (x : Char) (h : x.toNat ≠ 0 ∧ x ≠ '\\') : Atom :=
  .string '\'' [x] (by decide) (by simpa using h.1) (by simpa using h.2)

def Name.entry (n : Name) (v : Assignment) : Entry := ⟨n.text, n.ne_nil, n.letters, v⟩

def classEntry : Entry :=
  (Name.ofText "class".toList (by decide)).entry
    (.list [letter 'f' (by decide), letter 'g' (by decide)])

def idEntry : Entry := (Name.ofText "id".toList (by decide)).entry (.list [letter 'h' (by decide)])

theorem classEntry_isText : classEntry.assignment.IsText := by
  intro a ha
  simp only [List.mem_cons, List.not_mem_nil, or_false] at ha
  rcases ha with rfl | rfl <;> rfl

theorem idEntry_isText : idEntry.assignment.IsText := by
  intro a ha
  rw [List.mem_singleton.mp ha]
  rfl

theorem blanks_space : Blanks [' '] := by simp [Blanks, Text.isIndent]

def arrowRow : Row where
  writing := .arrow
  entries := [(Name.ofText ['x'] (by decide)).entry (.one (letter 'y' (by decide))), classEntry]
  distinct := by decide
  names := by
    intro e he hkey
    simp only [List.mem_cons, List.not_mem_nil, or_false] at he
    rcases he with rfl | rfl
    · exact absurd hkey (by decide)
    · exact classEntry_isText
  text := "\x7b:x => 'y', :class=>('f' ,'g')\x7d".toList
  spelled := by
    have hround : Writing.allows .arrow .round := trivial
    have hlist : Suffixed .arrow classEntry.assignment "=>('f' ,'g')".toList :=
      .given blanks_nil blanks_nil (.list hround blanks_nil
        (.next _ blanks_space blanks_nil (by simp) (.last _ blanks_nil)))
    exact .brackets blanks_nil (.next (e := Name.entry _ _)
      (.given blanks_space blanks_space (.one _)) (.arrow blanks_nil blanks_space) (by simp)
      (.last (e := classEntry) hlist blanks_nil))

def equalsRow : Row where
  writing := .equals
  entries := [(Name.ofText ['x'] (by decide)).entry (.one (.number '1' [] (by decide) (by simp))),
    idEntry, (Name.ofText ['j'] (by decide)).entry .absent]
  distinct := by decide
  names := by
    intro e he hkey
    simp only [List.mem_cons, List.not_mem_nil, or_false] at he
    rcases he with rfl | rfl | rfl
    · exact absurd hkey (by decide)
    · exact idEntry_isText
    · exact absurd hkey (by decide)
  text := "(x=1 id=['h'] j)".toList
  spelled := by
    have hsquare : Writing.allows .equals .square := trivial
    have hlist : Suffixed .equals idEntry.assignment "=['h']".toList :=
      .given blanks_nil blanks_nil (.list hsquare blanks_nil (.last _ blanks_nil))
    exact .brackets blanks_nil (.next (e := Name.entry _ _) (.given blanks_nil blanks_nil (.one _))
      (.equals blanks_space (by simp)) (by simp) (.next (e := idEntry) hlist
        (.equals blanks_space (by simp)) (by simp)
        (.last (e := Name.entry _ _) .absent blanks_nil)))

def everyPart : Spelling where
  tag := .qualified (.ofText ['a'] (by decide)) (.ofText ['b'] (by decide))
  shortcuts := [.toId (.ofText ['c'] (by decide)), .toClass (.ofText ['d'] (by decide)),
    .toId (.ofText ['e'] (by decide))]
  started := by simp
  rows := [arrowRow, equalsRow]
  outer := true
  inner := true
  slash := true
  equals := true
  inline := "k ".toList
  unbroken := by decide

theorem element_spellings_parts :
    Text.quoted '\'' ['y'] = "'y'".toList ∧
    everyPart.text =
      "%a:b#c.d#e\x7b:x => 'y', :class=>('f' ,'g')\x7d(x=1 id=['h'] j)></= k \n".toList ∧
    ∀ passed rest, element {} .ok ⟨passed, everyPart.text ++ rest, 0, 0⟩ = .ok {
        tag := "a:b".toList
        id := some "e_h".toList
        classes := [.text ['f'], .text ['g'], .text ['d']]
        attributes := [(['x'], .one (.text ['1'])),
          ("class".toList, .many [.text ['f'], .text ['g']]),
          ("id".toList, .many [.text ['h']]), (['j'], .one (.flag true))]
        trimsOuter := true
        trimsInner := true
        selfClosing := true
        isVariable := true
        inline := some ['k']
        trimmed := by decide } ⟨everyPart.text.reverse ++ passed, rest, 0, 0⟩ := by
  obtain ⟨-, hquoted, hread⟩ := element_spellings {} .ok
  exact ⟨hquoted '\'' ['y'] (by simp), by decide, hread everyPart⟩

/-- A carriage return or a NUL between quotes is refused. -/
theorem literal_refused :
    (['\r', '\x00'].map fun x =>
      match element {} .ok (Cursor.ofText ("%p\x7ba: '".toList ++ x :: "'\x7d \nz".toList)) with
      | .ok _ _ => none
      | .error e _ => some e) = [some .badLiteral, some .badLiteral] := by
  decide +kernel

end Element

end Haml
