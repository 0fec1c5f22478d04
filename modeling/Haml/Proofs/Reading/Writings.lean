import Haml.Attribute.Reader
import Haml.Proofs.Dictionary
import Haml.Proofs.Reading.Exact
import Haml.Proofs.Text.LowerCase
import Haml.Proofs.Text.Quoting

/-!
The writings of attribute dictionaries. A list of entries can be written with arrows, with colons or
with equals signs, with spaces and tabs where they are allowed. Main statement: whatever the writing,
the dictionary reader gives the same entries in the same order and stops after the closing bracket.
-/
namespace Haml

namespace Attribute

open Reader

/-! ## Entries -/

/-- The words that stand for a value of their own. -/
inductive Keyword where
  | nothing
  | yes
  | no

namespace Keyword

def name : Keyword → Text
  | nothing => "none".toList
  | yes => "true".toList
  | no => "false".toList

def value : Keyword → Scalar
  | nothing => .nothing
  | yes => .flag true
  | no => .flag false

theorem mem_letters (k : Keyword) : ∀ y ∈ k.name, y ∈ Text.keywordLetters := by
  cases k <;> exact List.all_iff_forall_prop.mp (by decide)

end Keyword

inductive Atom where
  /-- A keyword in some letter case. -/
  | keyword (k : Keyword) (w : Text) (spelling : w.map Char.toLower = k.name)
  /-- A digit, then digits and points. -/
  | number (first : Char) (more : Text) (digit : Text.isDigit first = true)
      (digits : ∀ x ∈ more, (Text.isDigit x || x == '.') = true)
  /-- A word that is no keyword and does not start with a digit. -/
  | var (w : Text) (ne_nil : w ≠ []) (word : ∀ x ∈ w, Text.isWord x = true)
      (start : ∀ x, w.head? = some x → Text.isDigit x = false)
      (plain : ∀ k : Keyword, w.map Char.toLower ≠ k.name)
  /-- A text in quotes. It holds no NUL and does not end in a backslash. -/
  | string (q : Char) (t : Text) (quote : isQuote q = true) (nul : ∀ x ∈ t, x.toNat ≠ 0)
      (ending : t.getLast? ≠ some '\\')

namespace Atom

def written : Atom → Text
  | keyword _ w _ => w
  | number first more _ _ => first :: more
  | var w _ _ _ _ => w
  | string q t _ _ _ => Text.quoted q t

def value (s : Settings) : Atom → Scalar
  | keyword k _ _ => k.value
  | number first more _ _ => .text (first :: more)
  | var w _ _ _ _ => .text ("\x7b\x7b ".toList ++ w ++ " \x7d\x7d".toList)
  | string _ t _ _ _ => .text (if s.escapeValues then Escape.html t else t)

end Atom

inductive Assignment where
  | absent
  | one (a : Atom)
  | list (as : List Atom)

/-- Without a value an entry is switched on. -/
def Assignment.value (s : Settings) : Assignment → Value
  | absent => .one (.flag true)
  | one a => .one (a.value s)
  | list as => .many (as.map (·.value s))

structure Entry where
  key : Text
  ne_nil : key ≠ []
  letters : ∀ x ∈ key, (Text.isWord x || isDash x) = true
  assignment : Assignment

def Entry.dictionary (s : Settings) (es : List Entry) : Attributes :=
  es.map fun e => (e.key, e.assignment.value s)

/-! ## Writings -/

/-- The three writings `{:key => value}`, `{key: value}` and `(key=value)`. -/
inductive Writing where
  | arrow
  | colon
  | equals

namespace Writing

def opening : Writing → Char
  | arrow | colon => '\x7b'
  | equals => '('

def closing : Writing → Char
  | arrow | colon => '\x7d'
  | equals => ')'

def mark : Writing → Text
  | arrow => [':']
  | colon | equals => []

def sign : Writing → Text
  | arrow => ['=', '>']
  | colon => [':']
  | equals => ['=']

end Writing

def Blanks (b : Text) : Prop := ∀ x ∈ b, Text.isIndent x = true

/-- What stands between two entries: a comma, or at least one blank. -/
inductive Separates : Writing → Text → Prop where
  | arrow {b b' : Text} : Blanks b → Blanks b' → Separates .arrow (b ++ ',' :: b')
  | colon {b b' : Text} : Blanks b → Blanks b' → Separates .colon (b ++ ',' :: b')
  | equals {b : Text} : Blanks b → b ≠ [] → Separates .equals b

/-- The items of a list as they are written between its brackets. -/
inductive Items : List Atom → Text → Prop where
  | none : Items [] []
  | last {b : Text} (a : Atom) : Blanks b → Items [a] (a.written ++ b)
  | next {b b' t : Text} {as : List Atom} (a : Atom) : Blanks b → Blanks b' → as ≠ [] →
      Items as t → Items (a :: as) (a.written ++ b ++ ',' :: b' ++ t)

inductive Given : Assignment → Text → Prop where
  | one (a : Atom) : Given (.one a) a.written
  | list {b t : Text} {as : List Atom} : Blanks b → Items as t →
      Given (.list as) ('[' :: b ++ t ++ [']'])

inductive Tail (w : Writing) : Assignment → Text → Prop where
  | absent : Tail w .absent []
  | given {b b' t : Text} {v : Assignment} : Blanks b → Blanks b' → Given v t →
      Tail w v (b ++ w.sign ++ b' ++ t)

/-- The entries of a dictionary as they are written between its brackets. -/
inductive Entries (w : Writing) : List Entry → Text → Prop where
  | none : Entries w [] []
  | last {e : Entry} {t b : Text} : Tail w e.assignment t → Blanks b →
      Entries w [e] (w.mark ++ e.key ++ t ++ b)
  | next {e : Entry} {es : List Entry} {t sep t' : Text} : Tail w e.assignment t →
      Separates w sep → es ≠ [] → Entries w es t' →
      Entries w (e :: es) (w.mark ++ e.key ++ t ++ sep ++ t')

inductive Written (w : Writing) (es : List Entry) : Text → Prop where
  | brackets {b t : Text} : Blanks b → Entries w es t →
      Written w es (w.opening :: b ++ t ++ [w.closing])

/-! ## Writings with round lists -/

inductive Bracket where
  | square
  | round

namespace Bracket

def opening : Bracket → Char
  | square => '['
  | round => '('

def closing : Bracket → Char
  | square => ']'
  | round => ')'

end Bracket

/-- The brackets that a list can have: in parentheses it has square ones only. -/
def Writing.allows : Writing → Bracket → Prop
  | arrow, _ | colon, _ | equals, .square => True
  | equals, .round => False

/-- A value as it can be written, with lists in any bracket that is allowed. -/
inductive Offered (w : Writing) : Assignment → Text → Prop where
  | one (a : Atom) : Offered w (.one a) a.written
  | list {k : Bracket} {b t : Text} {as : List Atom} : w.allows k → Blanks b → Items as t →
      Offered w (.list as) (k.opening :: b ++ t ++ [k.closing])

inductive Suffixed (w : Writing) : Assignment → Text → Prop where
  | absent : Suffixed w .absent []
  | given {b b' t : Text} {v : Assignment} : Blanks b → Blanks b' → Offered w v t →
      Suffixed w v (b ++ w.sign ++ b' ++ t)

/-- The entries of a dictionary as they can be written between its brackets. -/
inductive Listed (w : Writing) : List Entry → Text → Prop where
  | none : Listed w [] []
  | last {e : Entry} {t b : Text} : Suffixed w e.assignment t → Blanks b →
      Listed w [e] (w.mark ++ e.key ++ t ++ b)
  | next {e : Entry} {es : List Entry} {t sep t' : Text} : Suffixed w e.assignment t →
      Separates w sep → es ≠ [] → Listed w es t' →
      Listed w (e :: es) (w.mark ++ e.key ++ t ++ sep ++ t')

/-- A dictionary as it can be written. -/
inductive Spelled (w : Writing) (es : List Entry) : Text → Prop where
  | brackets {b t : Text} : Blanks b → Listed w es t →
      Spelled w es (w.opening :: b ++ t ++ [w.closing])

theorem Given.offered {v : Assignment} {t : Text} (h : Given v t) (w : Writing) :
    Offered w v t := by
  cases h with
  | one a => exact .one a
  | list hb h => exact .list (k := .square) (by cases w <;> trivial) hb h

theorem Tail.suffixed {w : Writing} {v : Assignment} {t : Text} (h : Tail w v t) :
    Suffixed w v t := by
  cases h with
  | absent => exact .absent
  | given hb hb' h => exact .given hb hb' (h.offered w)

theorem Entries.listed {w : Writing} {es : List Entry} {t : Text} (h : Entries w es t) :
    Listed w es t := by
  induction h with
  | none => exact .none
  | last ht hb => exact .last ht.suffixed hb
  | next ht hsep hne _ ih => exact .next ht.suffixed hsep hne ih

/-- The writings in which all lists have square brackets. -/
theorem Written.spelled {w : Writing} {es : List Entry} {t : Text} (h : Written w es t) :
    Spelled w es t := by
  cases h with
  | brackets hb h => exact .brackets hb h.listed

/-! ## Reading single values and lists -/

variable {s : Settings} {block : Text → Except Failure Text} {rest : Text}

theorem Keyword.ofWord_eq {k : Keyword} {w : Text} (h : w.map Char.toLower = k.name) :
    Scalar.ofWord w = k.value := by
  have hlower : w.lower = k.name := (Text.lower_eq_iff k.mem_letters).mpr h
  unfold Scalar.ofWord
  rw [hlower]
  cases k <;> rfl

theorem Keyword.word {k : Keyword} {w : Text} (h : w.map Char.toLower = k.name) :
    w ≠ [] ∧ ∀ x ∈ w, Text.isWord x = true ∧ Text.isDigit x = false := by
  constructor
  · rintro rfl
    cases k <;> exact absurd h (by decide)
  · intro x hx
    have hlower : x.toLower ∈ k.name := h ▸ List.mem_map_of_mem hx
    exact (Text.word_of_toLower_mem (k.mem_letters _ hlower)).2

theorem ofWord_var {w : Text} (h : ∀ k : Keyword, w.map Char.toLower ≠ k.name) :
    Scalar.ofWord w = .text ("\x7b\x7b ".toList ++ w ++ " \x7d\x7d".toList) := by
  have hlower : ∀ k : Keyword, w.lower ≠ k.name := fun k hk =>
    h k ((Text.lower_eq_iff k.mem_letters).mp hk)
  have hnothing : w.lower ≠ "none".toList := hlower .nothing
  have hyes : w.lower ≠ "true".toList := hlower .yes
  have hno : w.lower ≠ "false".toList := hlower .no
  rw [Scalar.ofWord, if_neg hnothing, if_neg hyes, if_neg hno]

theorem reads_blanks {b : Text} (hb : Blanks b)
    (hrest : ∀ x, rest.head? = some x → Text.isIndent x = false) :
    Reads indentation b b rest :=
  reads_takeWhile hb hrest

/-- The characters that can come after a single value. -/
def stops : List Char := [' ', '\t', ',', ']', '\x7d', ')']

theorem not_word_of_mem_stops {x : Char} (h : x ∈ stops) :
    Text.isWord x = false ∧ (Text.isDigit x || x == '.') = false := by
  have hall : ∀ y ∈ stops, Text.isWord y = false ∧ (Text.isDigit y || y == '.') = false :=
    List.all_iff_forall_prop.mp (by decide)
  exact hall x h

/-- The characters that have a meaning before a value or at the end of a list. -/
def bounds : List Char := [' ', '\t', '\n', '(', ')', '[', ']']

/-- An atom does not start with one of these characters. -/
theorem Atom.exists_written (a : Atom) :
    ∃ x t, a.written = x :: t ∧ x ∉ bounds := by
  have hword : ∀ y ∈ bounds,
      Text.isWord y = false ∧ Text.isDigit y = false ∧ isQuote y = false :=
    List.all_iff_forall_prop.mp (by decide)
  cases a with
  | keyword k w spelling =>
    obtain ⟨hne, hletters⟩ := Keyword.word spelling
    obtain ⟨x, t, rfl⟩ := List.exists_cons_of_ne_nil hne
    refine ⟨x, t, rfl, fun h => ?_⟩
    simpa [hword x h] using (hletters x (by simp)).1
  | number first more digit digits =>
    refine ⟨first, more, rfl, fun h => ?_⟩
    simp [hword first h] at digit
  | var w ne_nil word start plain =>
    obtain ⟨x, t, rfl⟩ := List.exists_cons_of_ne_nil ne_nil
    refine ⟨x, t, rfl, fun h => ?_⟩
    simpa [hword x h] using word x (by simp)
  | string q t quote nul ending =>
    refine ⟨q, _, rfl, fun h => ?_⟩
    simp [hword q h] at quote

theorem reads_bareWord {w : Text} {x : Char} (hne : w ≠ []) (hw : ∀ y ∈ w, Text.isWord y = true)
    (hstart : ∀ y, w.head? = some y → Text.isDigit y = false) (hx : rest.head? = some x)
    (hstop : x ∈ stops) : Reads (scalar s) w (Scalar.ofWord w) rest := by
  obtain ⟨y, t, rfl⟩ := List.exists_cons_of_ne_nil hne
  have hquote : isQuote y ≠ true := by
    intro hq
    have hy : y = '"' ∨ y = '\'' := by simpa [isQuote] using hq
    have hword := hw y (by simp)
    obtain rfl | rfl := hy <;> exact absurd hword (by decide)
  refine (reads_peek rfl).look (.ite_neg hquote (.ite_neg (by simp [hstart y rfl]) ?_))
  refine .map _ (reads_word hne (by simpa using hw) fun z hz => ?_)
  rw [hx] at hz
  cases hz
  simp [not_word_of_mem_stops hstop]

theorem reads_scalar (a : Atom) {x : Char} (hx : rest.head? = some x) (hstop : x ∈ stops) :
    Reads (scalar s) a.written (a.value s) rest := by
  cases a with
  | keyword k w spelling =>
    obtain ⟨hne, hletters⟩ := Keyword.word spelling
    have h := reads_bareWord (s := s) hne (fun y hy => (hletters y hy).1)
      (fun y hy => (hletters y (List.mem_of_head? hy)).2) hx hstop
    rwa [Keyword.ofWord_eq spelling] at h
  | number first more digit digits =>
    have hquote : isQuote first ≠ true := by
      intro hq
      have hy : first = '"' ∨ first = '\'' := by simpa [isQuote] using hq
      obtain rfl | rfl := hy <;> exact absurd digit (by decide)
    refine (reads_peek rfl).look (.ite_neg hquote (.ite_pos digit ?_))
    refine .map _ (reads_number (fun y hy => ?_) hx (not_word_of_mem_stops hstop).2)
    obtain rfl | hy := List.mem_cons.mp hy
    · simp [digit]
    · exact digits y hy
  | var w ne_nil word start plain =>
    have h := reads_bareWord (s := s) ne_nil word start hx hstop
    rwa [ofWord_var plain] at h
  | string q t quote nul ending =>
    refine (reads_peek rfl).look (.ite_pos quote ?_)
    refine .map _ (reads_quotedString quote ?_ (Text.literal?_quotedBody quote nul))
    exact Text.closingQuote_quotedBody quote rest t q (fun _ => Text.quote_ne_backslash quote) ending

theorem Atom.head?_written (a : Atom) (t : Text) :
    ∃ x, (a.written ++ t).head? = some x ∧ x ∉ bounds := by
  obtain ⟨x, u, ha, hx⟩ := a.exists_written
  exact ⟨x, by simp [ha], hx⟩

theorem not_isIndent {x : Char} (h : x ∉ bounds) : Text.isIndent x = false := by
  simp only [bounds, List.mem_cons, not_or] at h
  simp [Text.isIndent, h]

/-- The blanks before an atom and the atom. -/
theorem reads_blanks_atom {b t : Text} (hb : Blanks b) (a : Atom) :
    Reads indentation b b (a.written ++ t) := by
  obtain ⟨x, hx, hnot⟩ := a.head?_written t
  refine reads_blanks hb fun y hy => ?_
  rw [hx] at hy
  cases hy
  exact not_isIndent hnot

theorem head?_blanks {l : List Char} (hl : ' ' ∈ l ∧ '\t' ∈ l) {b : Text} (hb : Blanks b) {y : Char}
    (hy : y ∈ l) (u : Text) : ∃ x, (b ++ y :: u).head? = some x ∧ x ∈ l := by
  cases b with
  | nil => exact ⟨y, rfl, hy⟩
  | cons x b =>
    refine ⟨x, rfl, ?_⟩
    have hx : x = ' ' ∨ x = '\t' := by simpa [Text.isIndent] using hb x (by simp)
    obtain rfl | rfl := hx
    · exact hl.1
    · exact hl.2

theorem Bracket.closing_mem (k : Bracket) : k.closing ∈ stops ∧ k.closing ∈ bounds ∧
    Text.isIndent k.closing = false ∧ k.closing ≠ ',' := by
  cases k <;> decide

/-- An item of a list and the blanks around it, before the comma or the closing bracket `y`. -/
theorem itemTurn_atom {k : Bracket} {b b' t : Text} {y : Char} (hb : Blanks b) (a : Atom)
    (hb' : Blanks b') (hy : y ∈ stops) (hindent : Text.isIndent y = false)
    (hrest : (t ++ rest).head? = some y)
    (hend : Reads (do
      if y ≠ k.closing then
        let _ ← Reader.symbol [[',']]
      return some (a.value s)) t (some (a.value s)) rest) :
    Reads (itemTurn s k.closing) (b ++ (a.written ++ (b' ++ t))) (some (a.value s)) rest := by
  obtain ⟨u, hu⟩ : ∃ u, t ++ rest = y :: u := List.head?_eq_some_iff.mp hrest
  obtain ⟨x, hx, hnot⟩ := a.head?_written (b' ++ t ++ rest)
  obtain ⟨z, hz, hstop⟩ := head?_blanks (by decide) hb' hy u
  have hopen : x ≠ k.closing := by
    rintro rfl
    exact hnot k.closing_mem.2.1
  have hz' : (b' ++ t ++ rest).head? = some z := by rw [List.append_assoc, hu, hz]
  refine Reads.bind (by rw [List.append_assoc]; exact reads_blanks_atom hb a) ?_
  refine (reads_peek (by rwa [List.append_assoc])).look (.ite_neg hopen ?_)
  refine (reads_scalar a hz' hstop).bind ((reads_blanks hb' fun v hv => ?_).bind ?_)
  · rw [hrest] at hv
    cases hv
    exact hindent
  · exact (reads_peek hrest).look hend

theorem itemTurn_last {k : Bracket} {b b' : Text} (hb : Blanks b) (a : Atom) (hb' : Blanks b') :
    Reads (itemTurn s k.closing) (b ++ (a.written ++ b')) (some (a.value s))
      (k.closing :: rest) := by
  have h : Reads (itemTurn s k.closing) (b ++ (a.written ++ (b' ++ []))) (some (a.value s))
      (k.closing :: rest) :=
    itemTurn_atom hb a hb' k.closing_mem.1 k.closing_mem.2.2.1 rfl
      (.ite_neg (by simp) (reads_pure _ _))
  rwa [List.append_nil] at h

theorem itemTurn_next {k : Bracket} {b b' : Text} (hb : Blanks b) (a : Atom) (hb' : Blanks b') :
    Reads (itemTurn s k.closing) (b ++ (a.written ++ (b' ++ [',']))) (some (a.value s)) rest :=
  itemTurn_atom hb a hb' (by decide) (by decide) rfl
    (.ite_pos k.closing_mem.2.2.2.symm ((reads_symbol [','] rest).last (reads_pure _ _)))

theorem itemTurn_none {k : Bracket} {b : Text} (hb : Blanks b) :
    Reads (itemTurn s k.closing) b none (k.closing :: rest) := by
  refine Reads.last (reads_blanks hb (by simp [k.closing_mem])) ?_
  exact (reads_peek rfl).look (.ite_pos rfl (reads_pure _ _))

theorem reads_items {k : Bracket} {as : List Atom} {t : Text} (h : Items as t) :
    ∀ {b steps : Text} {acc : List Scalar}, Blanks b → t.length + 1 < steps.length →
      Reads (iterate (gather (itemTurn s k.closing)) steps acc) (b ++ t)
        (acc.reverse ++ as.map (·.value s)) (k.closing :: rest) := by
  induction h with
  | none =>
    intro b steps acc hb hsteps
    obtain ⟨x, steps, rfl⟩ := List.exists_cons_of_length_pos (Nat.zero_lt_of_lt hsteps)
    rw [List.append_nil, List.map_nil, List.append_nil]
    exact .iterate_last x (itemTurn_none hb).gather_none
  | @last b' a hb' =>
    intro b steps acc hb hsteps
    obtain ⟨x, steps, rfl⟩ := List.exists_cons_of_length_pos (Nat.zero_lt_of_lt hsteps)
    obtain ⟨y, steps, rfl⟩ : ∃ y steps', steps = y :: steps' :=
      List.exists_cons_of_length_pos (by simp at hsteps; omega)
    have hnone : Reads (iterate (gather (itemTurn s k.closing)) (y :: steps) (a.value s :: acc)) []
        (acc.reverse ++ [a.value s]) (k.closing :: rest) := by
      rw [← List.reverse_cons]
      exact .iterate_last y (itemTurn_none (fun _ h => absurd h (by simp))).gather_none
    have hturn : Reads (gather (itemTurn s k.closing) acc) (b ++ (a.written ++ b'))
        (.inl (a.value s :: acc)) ([] ++ k.closing :: rest) := (itemTurn_last hb a hb').gather_some
    have h := hturn.iterate x hnone
    rwa [List.append_nil] at h
  | @next b₁ b₂ t as a hb₁ hb₂ hne h ih =>
    intro b steps acc hb hsteps
    obtain ⟨x, steps, rfl⟩ := List.exists_cons_of_length_pos (Nat.zero_lt_of_lt hsteps)
    have hloop : Reads (iterate (gather (itemTurn s k.closing)) steps (a.value s :: acc)) (b₂ ++ t)
        ((a.value s :: acc).reverse ++ as.map (·.value s)) (k.closing :: rest) :=
      ih hb₂ (by simp at hsteps; omega)
    have h := (itemTurn_next hb a hb₁).gather_some.iterate x hloop
    simpa using h

theorem reads_list (k : Bracket) {as : List Atom} {b t : Text} (hb : Blanks b) (h : Items as t) :
    Reads (list s) (k.opening :: b ++ t ++ [k.closing]) (as.map (·.value s)) rest := by
  have hopening : k.opening = '(' ∨ k.opening = '[' := by cases k <;> simp [Bracket.opening]
  have hclosing : (if k.opening = '(' then ')' else ']') = k.closing := by cases k <;> rfl
  refine (reads_peek rfl).look (.ite_pos hopening ?_)
  have hskip := reads_skip k.opening ((b ++ t ++ [k.closing]) ++ rest)
  refine hskip.bind ((reads_allowance _).look ?_)
  rw [hclosing, items_eq]
  refine Reads.bind (a := as.map (·.value s)) ?_ ((reads_skip k.closing rest).last (reads_pure _ _))
  exact reads_items h hb (by simp; omega)

/-- Which characters open a list in a dictionary. -/
def Opens (w : Writing) (opens : Char → Bool) : Prop :=
  (∀ k, w.allows k → opens k.opening = true) ∧ ∀ x, x ∉ bounds → opens x = false

theorem reads_assigned {w : Writing} {opens : Char → Bool} {b t : Text} {v : Assignment} {x : Char}
    (ho : Opens w opens) (hb : Blanks b) (h : Offered w v t) (hx : rest.head? = some x)
    (hstop : x ∈ stops) : Reads (assigned s block opens) (b ++ t) (v.value s) rest := by
  cases h with
  | one a =>
    obtain ⟨y, hy, hnot⟩ := a.head?_written rest
    have hbreak : y ≠ '\n' := by
      rintro rfl
      exact hnot (by decide)
    have hne : a.written ++ rest ≠ [] := by
      intro h
      simp [h] at hy
    refine (reads_blanks_atom hb a).bind ((reads_expectInput hne).look ((reads_peek hy).look ?_))
    refine .ite_neg hbreak (.ite_neg (by simp [ho.2 y hnot]) ?_)
    exact (reads_scalar a hx hstop).map _
  | @list k b' t as hallows hb' h =>
    have hbracket : Text.isIndent k.opening = false ∧ k.opening ≠ '\n' := by cases k <;> decide
    refine (reads_blanks hb (by simp [hbracket])).bind ?_
    refine (reads_expectInput (by simp)).look ((reads_peek rfl).look ?_)
    refine .ite_neg hbracket.2 (.ite_pos (ho.1 k hallows) ?_)
    exact (reads_list k hb' h).map _

/-! ## Reading entries -/

theorem Entry.exists_key (e : Entry) :
    ∃ x t, e.key = x :: t ∧ (Text.isWord x || isDash x) = true := by
  obtain ⟨x, t, h⟩ := List.exists_cons_of_ne_nil e.ne_nil
  exact ⟨x, t, h, e.letters x (by simp [h])⟩

/-- The characters that are no part of a key and have a meaning around it. -/
def marks : List Char := [' ', '\t', '\r', '\n', ',', ':', '=', '(', ')', '\x7b', '\x7d', '"', '\'']

theorem not_letter_of_mem_marks {x : Char} (h : x ∈ marks) :
    (Text.isWord x || isDash x) = false := by
  have hall : ∀ y ∈ marks, (Text.isWord y || isDash y) = false :=
    List.all_iff_forall_prop.mp (by decide)
  exact hall x h

theorem not_mem_marks {x : Char} (h : (Text.isWord x || isDash x) = true) : x ∉ marks := by
  intro hx
  rw [not_letter_of_mem_marks hx] at h
  exact absurd h (by decide)

/-- The first character of an entry: a colon in the writing with arrows, else a letter. -/
theorem Entry.head? (w : Writing) (e : Entry) (t : Text) :
    ∃ x, (w.mark ++ e.key ++ t).head? = some x ∧ (x = ':' ↔ w = .arrow) ∧
      (w ≠ .arrow → (Text.isWord x || isDash x) = true) := by
  obtain ⟨y, k, hk, hy⟩ := e.exists_key
  have hcolon : y ≠ ':' := by
    rintro rfl
    exact not_mem_marks hy (by decide)
  cases w with
  | arrow => exact ⟨':', rfl, by simp, by simp⟩
  | colon => exact ⟨y, by simp [Writing.mark, hk], by simp [hcolon], fun _ => hy⟩
  | equals => exact ⟨y, by simp [Writing.mark, hk], by simp [hcolon], fun _ => hy⟩

theorem reads_dashWord (e : Entry) {x : Char} (hx : rest.head? = some x) (hmark : x ∈ marks) :
    Reads (word isDash) e.key e.key rest := by
  refine reads_word e.ne_nil e.letters fun y hy => ?_
  rw [hx] at hy
  cases hy
  exact not_letter_of_mem_marks hmark

/-- The key of an entry in braces and what `k` reads after it; `q` tells the two writings apart. -/
theorem reads_bracedKey {w : Writing} {q : Prop} [Decidable q] {α : Type} {k : Text → Reader α}
    {t : Text} {a : α} {x : Char} (hw : w ≠ .equals) (hq : q ↔ w = .arrow) (e : Entry)
    (hx : (t ++ rest).head? = some x) (hmark : x ∈ marks) (hk : Reads (k e.key) t a rest) :
    Reads (if q then do
        Reader.skip
        k (← Reader.word isDash)
      else do
        k (← bareKey)) (w.mark ++ e.key ++ t) a rest := by
  have hword := reads_dashWord e hx hmark
  cases w with
  | arrow => exact .ite_pos (hq.mpr rfl) ((reads_skip ':' _).bind (hword.bind hk))
  | colon =>
    obtain ⟨y, hy, _, hletter⟩ := e.head? .colon (t ++ rest)
    have hquote : isQuote y ≠ true := by
      intro h
      have hy : y = '"' ∨ y = '\'' := by simpa [isQuote] using h
      apply not_mem_marks (hletter (by simp))
      obtain rfl | rfl := hy <;> decide
    have hbare : Reads bareKey e.key e.key (t ++ rest) :=
      (reads_peek hy).look (.ite_neg hquote hword)
    exact .ite_neg (by simp [hq]) (hbare.bind hk)
  | equals => exact absurd rfl hw

theorem Writing.exists_sign (w : Writing) : ∃ c t, w.sign = c :: t ∧ (c = '=' ∨ c = ':') := by
  cases w with
  | arrow => exact ⟨'=', ['>'], rfl, .inl rfl⟩
  | colon => exact ⟨':', [], rfl, .inr rfl⟩
  | equals => exact ⟨'=', [], rfl, .inl rfl⟩

theorem bracedEntry_absent {w : Writing} (hw : w ≠ .equals) (e : Entry) {b : Text} {y : Char}
    (hb : Blanks b) (hy : y = ',' ∨ y = '\x7d') :
    Reads (bracedEntry s block) (w.mark ++ e.key ++ b) (e.key, .one (.flag true)) (y :: rest) := by
  have hmark : y ∈ marks := by obtain rfl | rfl := hy <;> decide
  have hindent : Text.isIndent y = false := by obtain rfl | rfl := hy <;> decide
  have hsign : ¬ (y = '=' ∨ y = ':') := by obtain rfl | rfl := hy <;> decide
  obtain ⟨x, hx, hcolon, _⟩ := e.head? w (b ++ y :: rest)
  obtain ⟨z, hz, hzmark⟩ := head?_blanks (by decide) hb hmark rest
  refine (reads_peek (by rwa [List.append_assoc])).look ?_
  refine reads_bracedKey hw hcolon e hz hzmark (Reads.last (reads_blanks hb ?_) ?_)
  · intro v hv
    cases hv
    exact hindent
  · exact (reads_peek rfl).look (.ite_neg hsign (reads_pure _ _))

theorem opens_braces (w : Writing) : Opens w fun c => c == '(' || c == '[' := by
  refine ⟨fun k _ => by cases k <;> rfl, fun x hx => ?_⟩
  simp only [bounds, List.mem_cons, not_or] at hx
  simp [hx]

theorem opens_parens : Opens .equals fun c => c == '[' := by
  refine ⟨fun k hk => ?_, fun x hx => ?_⟩
  · cases k with
    | square => rfl
    | round => exact False.elim hk
  · simp only [bounds, List.mem_cons, not_or] at hx
    simp [hx]

theorem bracedEntry_given {w : Writing} (hw : w ≠ .equals) (e : Entry) {b b' t : Text} {x : Char}
    (hb : Blanks b) (hb' : Blanks b') (h : Offered w e.assignment t) (hx : rest.head? = some x)
    (hstop : x ∈ stops) :
    Reads (bracedEntry s block) (w.mark ++ e.key ++ (b ++ (w.sign ++ (b' ++ t))))
      (e.key, e.assignment.value s) rest := by
  obtain ⟨c, u, hsign, hc⟩ := w.exists_sign
  obtain ⟨y, hy, hcolon, _⟩ := e.head? w ((b ++ (w.sign ++ (b' ++ t))) ++ rest)
  have hcmark : c ∈ marks := by obtain rfl | rfl := hc <;> decide
  have hindent : Text.isIndent c = false := by obtain rfl | rfl := hc <;> decide
  obtain ⟨z, hz, hzmark⟩ := head?_blanks (by decide) hb hcmark (u ++ (b' ++ t) ++ rest)
  have hsymbol : (if y = ':' then ['=', '>'] else [':']) = w.sign := by
    cases w with
    | arrow => rw [if_pos (hcolon.mpr rfl)]; rfl
    | colon => rw [if_neg (by simp [hcolon])]; rfl
    | equals => exact absurd rfl hw
  have hz' : ((b ++ (w.sign ++ (b' ++ t))) ++ rest).head? = some z := by
    rw [← hz, hsign]
    simp
  refine (reads_peek (by rwa [List.append_assoc])).look ?_
  refine reads_bracedKey hw hcolon e hz' hzmark ((reads_blanks hb fun v hv => ?_).bind ?_)
  · rw [hsign] at hv
    cases hv
    exact hindent
  · refine (reads_peek (x := c) (by rw [hsign]; rfl)).look (.ite_pos hc ?_)
    rw [hsymbol]
    refine (reads_symbol _ _).bind ?_
    exact (reads_assigned (opens_braces w) hb' h hx hstop).map _

/-- An entry in braces. If it has no value, the blanks after it are passed over as well. -/
theorem reads_bracedEntry {w : Writing} {e : Entry} {t b : Text} {y : Char} (hw : w ≠ .equals)
    (h : Suffixed w e.assignment t) (hb : Blanks b) (hy : y = ',' ∨ y = '\x7d') (rest : Text) :
    ∃ b₁ b₂, b = b₁ ++ b₂ ∧ Blanks b₂ ∧ Reads (bracedEntry s block) (w.mark ++ e.key ++ (t ++ b₁))
      (e.key, e.assignment.value s) (b₂ ++ y :: rest) := by
  generalize hv : e.assignment = v at h
  cases h with
  | absent => exact ⟨b, [], by simp, by simp [Blanks], bracedEntry_absent hw e hb hy⟩
  | given hb₁ hb₂ h =>
    have hstop : y ∈ stops := by obtain rfl | rfl := hy <;> decide
    obtain ⟨x, hx, hxstop⟩ := head?_blanks (by decide) hb hstop rest
    subst hv
    refine ⟨[], b, rfl, hb, ?_⟩
    simpa using bracedEntry_given hw e hb₁ hb₂ h hx hxstop

/-- The characters that can come after a key in parentheses. -/
def keyEnds : List Char := [' ', '\t', '=', ')']

theorem reads_parenKey (e : Entry) {x : Char} (hx : rest.head? = some x) (hend : x ∈ keyEnds) :
    Reads (word isKeyMark) e.key e.key rest := by
  have hall : ∀ y ∈ keyEnds, (Text.isWord y || isKeyMark y) = false :=
    List.all_iff_forall_prop.mp (by decide)
  refine reads_word e.ne_nil (fun y hy => ?_) fun y hy => ?_
  · obtain h | h := Bool.or_eq_true_iff.mp (e.letters y hy)
    · simp [h]
    · have : y = '-' := by simpa [isDash] using h
      subst this
      rfl
  · rw [hx] at hy
    cases hy
    exact hall _ hend

/-- What is checked after a key in parentheses. -/
theorem keyEnd_of_mem {x : Char} (h : x ∈ keyEnds) :
    ¬ (!(Text.isIndent x || x == '=' || x == ')')) = true := by
  have hall : ∀ y ∈ keyEnds, ¬ (!(Text.isIndent y || y == '=' || y == ')')) = true :=
    List.all_iff_forall_prop.mp (by decide)
  exact hall x h

/-- What can come after the blanks `b` that follow an entry in parentheses: the closing parenthesis,
or, if there are any blanks, the next key. -/
def Follows (b : Text) (y : Char) : Prop :=
  y = ')' ∨ b ≠ [] ∧ (Text.isWord y || isDash y) = true

theorem Follows.head? {l : List Char} (hl : ' ' ∈ l ∧ '\t' ∈ l ∧ ')' ∈ l) {b : Text} {y : Char}
    (hb : Blanks b) (hy : Follows b y) (u : Text) :
    ∃ x, (b ++ y :: u).head? = some x ∧ x ∈ l := by
  obtain rfl | ⟨hne, _⟩ := hy
  · exact head?_blanks ⟨hl.1, hl.2.1⟩ hb hl.2.2 u
  · obtain ⟨x, b, rfl⟩ := List.exists_cons_of_ne_nil hne
    have hx : x = ' ' ∨ x = '\t' := by simpa [Text.isIndent] using hb x (by simp)
    refine ⟨x, rfl, ?_⟩
    obtain rfl | rfl := hx
    · exact hl.1
    · exact hl.2.1

theorem Follows.not_mark {b : Text} {y : Char} (hy : Follows b y) :
    Text.isIndent y = false ∧ y ≠ '=' ∧ y ≠ ',' := by
  obtain rfl | ⟨_, hletter⟩ := hy
  · decide
  · have h := not_mem_marks hletter
    simp only [marks, List.mem_cons, not_or] at h
    simp [Text.isIndent, h]

theorem parenEntry_absent (e : Entry) {b : Text} {y : Char} (hb : Blanks b) (hy : Follows b y) :
    Reads (parenEntry s block) (e.key ++ b) (e.key, .one (.flag true)) (y :: rest) := by
  obtain ⟨x, hx, hend⟩ := hy.head? (by decide : _ ∧ _ ∧ _ ∈ keyEnds) hb rest
  obtain ⟨hindent, hequals, _⟩ := hy.not_mark
  refine (reads_parenKey e hx hend).bind ((reads_peek hx).look (.ite_neg (keyEnd_of_mem hend) ?_))
  refine Reads.last (reads_blanks hb fun v hv => ?_) ?_
  · cases hv
    exact hindent
  · exact (reads_peek rfl).look (.ite_neg hequals (reads_pure _ _))

theorem parenEntry_given (e : Entry) {b b' t : Text} {x : Char} (hb : Blanks b) (hb' : Blanks b')
    (h : Offered .equals e.assignment t) (hx : rest.head? = some x) (hstop : x ∈ stops) :
    Reads (parenEntry s block) (e.key ++ (b ++ (['='] ++ (b' ++ t))))
      (e.key, e.assignment.value s) rest := by
  obtain ⟨z, hz, hend⟩ :=
    head?_blanks (by decide) hb (by decide : '=' ∈ keyEnds) ((b' ++ t) ++ rest)
  have hz' : (b ++ (['='] ++ (b' ++ t)) ++ rest).head? = some z := by
    rw [← hz]
    simp
  refine (reads_parenKey e hz' hend).bind ((reads_peek hz').look (.ite_neg (keyEnd_of_mem hend) ?_))
  refine (reads_blanks hb fun v hv => ?_).bind ?_
  · cases hv
    rfl
  · refine (reads_peek rfl).look (.ite_pos rfl ((reads_symbol _ _).bind ?_))
    exact (reads_assigned opens_parens hb' h hx hstop).map _

/-- An entry in parentheses. If it has no value, the blanks after it are passed over as well. -/
theorem reads_parenEntry {e : Entry} {t b : Text} {y : Char} (h : Suffixed .equals e.assignment t)
    (hb : Blanks b) (hy : Follows b y) (rest : Text) :
    ∃ b₁ b₂, b = b₁ ++ b₂ ∧ Blanks b₂ ∧ Reads (parenEntry s block) (e.key ++ (t ++ b₁))
      (e.key, e.assignment.value s) (b₂ ++ y :: rest) := by
  generalize hv : e.assignment = v at h
  cases h with
  | absent => exact ⟨b, [], by simp, by simp [Blanks], parenEntry_absent e hb hy⟩
  | given hb₁ hb₂ h =>
    obtain ⟨x, hx, hstop⟩ := hy.head? (by decide : _ ∧ _ ∧ _ ∈ stops) hb rest
    subst hv
    refine ⟨[], b, rfl, hb, ?_⟩
    simpa [Writing.sign] using parenEntry_given e hb₁ hb₂ h hx hstop

/-! ## Reading dictionaries -/

theorem reads_record {d : Attributes} {key : Text} (v : Value) (h : key ∉ d.keys) :
    Reads (record d (key, v)) [] (d ++ [(key, v)]) rest := by
  have hnew : d.contains key = false := by
    simp only [Dictionary.contains, List.any_eq_false, beq_iff_eq]
    rintro e he rfl
    exact h (List.mem_map_of_mem he)
  refine Reads.ite_neg (by simp [hnew]) ?_
  rw [← Dictionary.insert_of_not_mem v h]
  exact reads_pure _ _

/-- The first character of an entry is no blank and no closing bracket. -/
theorem Entry.starts (w : Writing) (e : Entry) (t : Text) :
    ∃ x, (w.mark ++ e.key ++ t).head? = some x ∧ Text.isGap x = false ∧ x ≠ '\x7d' ∧ x ≠ ')' := by
  obtain ⟨x, hx, hcolon, hletter⟩ := e.head? w t
  refine ⟨x, hx, ?_⟩
  by_cases hw : w = .arrow
  · rw [hcolon.mpr hw]
    decide
  · have h := not_mem_marks (hletter hw)
    simp only [marks, List.mem_cons, not_or] at h
    simp [Text.isGap, h]

/-- The blanks before the first or the next entry. -/
theorem reads_gap {b : Text} {x : Char} (hb : Blanks b) (hx : rest.head? = some x)
    (hgap : Text.isGap x = false) : Reads gap b b rest := by
  refine reads_takeWhile (fun y hy => ?_) fun y hy => ?_
  · have h : y = ' ' ∨ y = '\t' := by simpa [Text.isIndent] using hb y hy
    obtain rfl | rfl := h <;> rfl
  · rw [hx] at hy
    cases hy
    exact hgap

/-- An entry in braces with the blanks around it, before the comma or the closing brace `y`. -/
theorem bracedTurn_entry {w : Writing} {e : Entry} {t b b' u r : Text} {y : Char} {d : Attributes}
    (hw : w ≠ .equals) (h : Suffixed w e.assignment t) (hb : Blanks b) (hb' : Blanks b')
    (hy : y = ',' ∨ y = '\x7d') (hd : e.key ∉ d.keys) (hrest : u ++ rest = y :: r)
    (hend : Reads (do
      if y ≠ '\x7d' ∧ y ≠ '\n' then
        let _ ← Reader.symbol [[',']]
      return (.inl (d ++ [(e.key, e.assignment.value s)]) : Attributes ⊕ Attributes)) u
        (.inl (d ++ [(e.key, e.assignment.value s)])) rest) :
    Reads (bracedTurn s block d) (b ++ (w.mark ++ e.key ++ (t ++ b') ++ u))
      (.inl (d ++ [(e.key, e.assignment.value s)])) rest := by
  obtain ⟨b₁, b₂, rfl, hb₂, hentry⟩ := reads_bracedEntry hw h hb' hy r
  obtain ⟨x, hx, hgap, hbrace, _⟩ := e.starts w ((t ++ (b₁ ++ b₂)) ++ u ++ rest)
  have hindent : Text.isIndent y = false := by obtain rfl | rfl := hy <;> decide
  have hx' : (w.mark ++ e.key ++ (t ++ (b₁ ++ b₂)) ++ u ++ rest).head? = some x := by
    rw [← hx]
    simp
  refine (reads_gap hb hx' hgap).bind ((reads_atEnd (ne_nil_of_head? hx')).look ?_)
  refine .ite_neg (by simp) ((reads_peek hx').look (.ite_neg hbrace ?_))
  have htext : w.mark ++ e.key ++ (t ++ (b₁ ++ b₂)) ++ u =
      (w.mark ++ e.key ++ (t ++ b₁)) ++ (b₂ ++ u) := by simp
  rw [htext]
  have hafter : b₂ ++ y :: r = (b₂ ++ u) ++ rest := by rw [List.append_assoc, hrest]
  rw [hafter] at hentry
  refine hentry.bind ((reads_record _ hd).look ((reads_blanks hb₂ fun v hv => ?_).bind ?_))
  · rw [hrest] at hv
    cases hv
    exact hindent
  · exact (reads_peek (by rw [hrest]; rfl)).look hend

theorem parenTurn_entry {e : Entry} {t b b' : Text} {y : Char} {d : Attributes}
    (h : Suffixed .equals e.assignment t) (hb : Blanks b) (hb' : Blanks b') (hy : Follows b' y)
    (hd : e.key ∉ d.keys) :
    Reads (parenTurn s block d) (b ++ (e.key ++ (t ++ b')))
      (.inl (d ++ [(e.key, e.assignment.value s)])) (y :: rest) := by
  obtain ⟨b₁, b₂, rfl, hb₂, hentry⟩ := reads_parenEntry h hb' hy rest
  obtain ⟨x, hx, hgap, _, hparen⟩ := e.starts .equals ((t ++ (b₁ ++ b₂)) ++ y :: rest)
  obtain ⟨hindent, _, hcomma⟩ := hy.not_mark
  have hx' : (e.key ++ (t ++ (b₁ ++ b₂)) ++ y :: rest).head? = some x := by
    rw [← hx]
    simp [Writing.mark]
  refine (reads_gap hb hx' hgap).bind ((reads_atEnd (ne_nil_of_head? hx')).look ?_)
  refine .ite_neg (by simp) ((reads_peek hx').look (.ite_neg hparen ?_))
  have htext : e.key ++ (t ++ (b₁ ++ b₂)) = (e.key ++ (t ++ b₁)) ++ b₂ := by simp
  rw [htext]
  refine hentry.bind ((reads_record _ hd).look (Reads.last (reads_blanks hb₂ fun v hv => ?_) ?_))
  · cases hv
    exact hindent
  · exact (reads_peek rfl).look (.ite_neg hcomma (reads_pure _ _))

theorem bracedTurn_last {w : Writing} {e : Entry} {t b b' : Text} {d : Attributes}
    (hw : w ≠ .equals) (h : Suffixed w e.assignment t) (hb : Blanks b) (hb' : Blanks b')
    (hd : e.key ∉ d.keys) :
    Reads (bracedTurn s block d) (b ++ (w.mark ++ e.key ++ t ++ b'))
      (.inl (d ++ [(e.key, e.assignment.value s)])) ('\x7d' :: rest) := by
  have hturn : Reads (bracedTurn s block d) (b ++ (w.mark ++ e.key ++ (t ++ b') ++ []))
      (.inl (d ++ [(e.key, e.assignment.value s)])) ('\x7d' :: rest) :=
    bracedTurn_entry hw h hb hb' (.inr rfl) hd rfl (.ite_neg (by simp) (reads_pure _ _))
  simpa using hturn

theorem bracedTurn_next {w : Writing} {e : Entry} {t b b' : Text} {d : Attributes}
    (hw : w ≠ .equals) (h : Suffixed w e.assignment t) (hb : Blanks b) (hb' : Blanks b')
    (hd : e.key ∉ d.keys) :
    Reads (bracedTurn s block d) (b ++ (w.mark ++ e.key ++ t ++ (b' ++ [','])))
      (.inl (d ++ [(e.key, e.assignment.value s)])) rest := by
  have hturn : Reads (bracedTurn s block d) (b ++ (w.mark ++ e.key ++ (t ++ b') ++ [',']))
      (.inl (d ++ [(e.key, e.assignment.value s)])) rest :=
    bracedTurn_entry hw h hb hb' (.inl rfl) hd rfl
      (.ite_pos (by decide) ((reads_symbol [','] _).last (reads_pure _ _)))
  simpa using hturn

def entryTurn (s : Settings) (block : Text → Except Failure Text) :
    Writing → Attributes → Reader (Attributes ⊕ Attributes)
  | .arrow | .colon => bracedTurn s block
  | .equals => parenTurn s block

variable (s block) in
theorem entryTurn_braces {w : Writing} (hw : w ≠ .equals) :
    entryTurn s block w = bracedTurn s block ∧ w.closing = '\x7d' := by
  cases w with
  | arrow => exact ⟨rfl, rfl⟩
  | colon => exact ⟨rfl, rfl⟩
  | equals => exact absurd rfl hw

theorem entryTurn_closing {w : Writing} {b : Text} (hb : Blanks b) (d : Attributes) :
    Reads (entryTurn s block w d) (b ++ [w.closing]) (.inr d) rest := by
  by_cases hw : w = .equals
  · subst hw
    refine (reads_gap hb rfl rfl).bind ((reads_atEnd (by simp)).look (.ite_neg (by simp) ?_))
    exact (reads_peek rfl).look (.ite_pos rfl ((reads_skip _ _).last (reads_pure _ _)))
  · obtain ⟨hturn, hclosing⟩ := entryTurn_braces s block hw
    rw [hturn, hclosing]
    refine (reads_gap hb rfl rfl).bind ((reads_atEnd (by simp)).look (.ite_neg (by simp) ?_))
    exact (reads_peek rfl).look (.ite_pos rfl ((reads_skip _ _).last (reads_pure _ _)))

theorem entryTurn_last {w : Writing} {e : Entry} {t b b' : Text} {d : Attributes}
    (h : Suffixed w e.assignment t) (hb : Blanks b) (hb' : Blanks b') (hd : e.key ∉ d.keys) :
    Reads (entryTurn s block w d) (b ++ (w.mark ++ e.key ++ t ++ b'))
      (.inl (d ++ [(e.key, e.assignment.value s)])) (w.closing :: rest) := by
  by_cases hw : w = .equals
  · subst hw
    have hturn : Reads (parenTurn s block d) (b ++ (e.key ++ (t ++ b')))
        (.inl (d ++ [(e.key, e.assignment.value s)])) (')' :: rest) :=
      parenTurn_entry h hb hb' (.inl rfl) hd
    rw [List.append_assoc, List.append_assoc]
    exact hturn
  · obtain ⟨hturn, hclosing⟩ := entryTurn_braces s block hw
    rw [hturn, hclosing]
    exact bracedTurn_last hw h hb hb' hd

theorem Listed.head?_equals {es : List Entry} {t : Text} (h : Listed .equals es t) (hne : es ≠ []) :
    ∃ x u, t = x :: u ∧ (Text.isWord x || isDash x) = true := by
  cases h with
  | none => exact absurd rfl hne
  | @last e t b ht hb =>
    obtain ⟨x, u, hk, hx⟩ := e.exists_key
    exact ⟨x, _, by simp [Writing.mark, hk]; rfl, hx⟩
  | @next e es t sep t' ht hsep _ _ =>
    obtain ⟨x, u, hk, hx⟩ := e.exists_key
    exact ⟨x, _, by simp [Writing.mark, hk]; rfl, hx⟩

variable (s block) in
/-- An entry and what separates it from the next one, up to blanks before that. -/
theorem entryTurn_next {w : Writing} {e : Entry} {es : List Entry} {t t' sep b : Text}
    {d : Attributes} (h : Suffixed w e.assignment t) (hsep : Separates w sep) (hne : es ≠ [])
    (hes : Listed w es t') (hb : Blanks b) (hd : e.key ∉ d.keys) :
    ∃ sep₁ sep₂, sep = sep₁ ++ sep₂ ∧ Blanks sep₂ ∧ ∀ rest,
      Reads (entryTurn s block w d) (b ++ (w.mark ++ e.key ++ t ++ sep₁))
        (.inl (d ++ [(e.key, e.assignment.value s)])) (sep₂ ++ t' ++ rest) := by
  cases hsep with
  | @arrow b₁ b₂ hb₁ hb₂ =>
    exact ⟨b₁ ++ [','], b₂, by simp, hb₂, fun _ => bracedTurn_next (by simp) h hb hb₁ hd⟩
  | @colon b₁ b₂ hb₁ hb₂ =>
    exact ⟨b₁ ++ [','], b₂, by simp, hb₂, fun _ => bracedTurn_next (by simp) h hb hb₁ hd⟩
  | equals hblanks hsome =>
    obtain ⟨x, u, rfl, hx⟩ := hes.head?_equals hne
    refine ⟨sep, [], by simp, by simp [Blanks], fun rest => ?_⟩
    have htext : Writing.equals.mark ++ e.key ++ t ++ sep = e.key ++ (t ++ sep) := by
      rw [List.append_assoc, List.append_assoc]
      rfl
    rw [htext]
    exact parenTurn_entry h hb hblanks (.inr ⟨hsome, hx⟩) hd

theorem not_mem_of_nodup {d : Attributes} {e : Entry} {es : List Entry}
    (h : (d.keys ++ (e :: es).map (·.key)).Nodup) : e.key ∉ d.keys := by
  intro hmem
  exact (List.nodup_append.mp h).2.2 _ hmem _ (by simp) rfl

/-- The entries and the closing bracket. By induction on the entries; the ones before are in `d`,
and `b` are the blanks that the last turn left. -/
theorem reads_entries {w : Writing} {es : List Entry} {t : Text} (h : Listed w es t) :
    ∀ {b steps : Text} {d : Attributes}, Blanks b → t.length + 1 < steps.length →
      (d.keys ++ es.map (·.key)).Nodup →
      Reads (iterate (entryTurn s block w) steps d) (b ++ t ++ [w.closing])
        (d ++ Entry.dictionary s es) rest := by
  induction h with
  | none =>
    intro b steps d hb hsteps _
    obtain ⟨x, steps, rfl⟩ := List.exists_cons_of_length_pos (Nat.zero_lt_of_lt hsteps)
    simpa [Entry.dictionary] using Reads.iterate_last x (entryTurn_closing hb d)
  | @last e t b' ht hb' =>
    intro b steps d hb hsteps hkeys
    obtain ⟨x, steps, rfl⟩ := List.exists_cons_of_length_pos (Nat.zero_lt_of_lt hsteps)
    obtain ⟨y, steps, rfl⟩ : ∃ y steps', steps = y :: steps' :=
      List.exists_cons_of_length_pos (by simp at hsteps; omega)
    have hclosing : Reads (iterate (entryTurn s block w) (y :: steps)
        (d ++ [(e.key, e.assignment.value s)])) ([] ++ [w.closing])
        (d ++ [(e.key, e.assignment.value s)]) rest :=
      .iterate_last y (entryTurn_closing (by simp [Blanks]) _)
    have hd := not_mem_of_nodup hkeys
    exact (entryTurn_last ht hb hb' hd).iterate x hclosing
  | @next e es t sep t' ht hsep hne hes ih =>
    intro b steps d hb hsteps hkeys
    obtain ⟨x, steps, rfl⟩ := List.exists_cons_of_length_pos (Nat.zero_lt_of_lt hsteps)
    have hd := not_mem_of_nodup hkeys
    obtain ⟨sep₁, sep₂, rfl, hsep₂, hturn⟩ := entryTurn_next s block ht hsep hne hes hb hd
    have hloop : Reads (iterate (entryTurn s block w) steps (d ++ [(e.key, e.assignment.value s)]))
        (sep₂ ++ t' ++ [w.closing])
        (d ++ [(e.key, e.assignment.value s)] ++ Entry.dictionary s es) rest := by
      refine ih hsep₂ ?_ ?_
      · obtain ⟨z, k, hk, _⟩ := e.exists_key
        simp [hk] at hsteps
        omega
      · simpa [Dictionary.keys] using hkeys
    have hnext : Reads (entryTurn s block w d) (b ++ (w.mark ++ e.key ++ t ++ sep₁))
        (.inl (d ++ [(e.key, e.assignment.value s)])) (sep₂ ++ t' ++ [w.closing] ++ rest) := by
      rw [List.append_assoc (sep₂ ++ t')]
      exact hturn ([w.closing] ++ rest)
    simpa [Entry.dictionary] using hnext.iterate x hloop

theorem reads_spelled {w : Writing} {es : List Entry} {t : Text}
    (hkeys : (es.map (·.key)).Nodup) (h : Spelled w es t) :
    Reads (dictionary s block) t (Entry.dictionary s es) rest := by
  cases h with
  | @brackets b t hb h =>
    have hloop : Reads (iterate (entryTurn s block w) (' ' :: (b ++ t ++ [w.closing] ++ rest)) [])
        (b ++ t ++ [w.closing]) (Entry.dictionary s es) rest :=
      reads_entries h hb (by simp; omega) hkeys
    refine (reads_peek rfl).look ?_
    by_cases hw : w = .equals
    · subst hw
      refine .ite_pos rfl ((reads_skip '(' _).bind ((reads_allowance _).look ?_))
      rw [parenEntries_eq]
      exact hloop
    · have hopening : w.opening = '\x7b' := by
        cases w with
        | arrow => rfl
        | colon => rfl
        | equals => exact absurd rfl hw
      rw [(entryTurn_braces s block hw).1] at hloop
      rw [hopening]
      refine .ite_neg (by decide) (.ite_pos rfl ?_)
      refine (reads_skip _ _).bind ((reads_allowance _).look ?_)
      rw [bracedEntries_eq]
      exact hloop

theorem reads_dictionary {w : Writing} {es : List Entry} {t : Text}
    (hkeys : (es.map (·.key)).Nodup) (h : Written w es t) :
    Reads (dictionary s block) t (Entry.dictionary s es) rest :=
  reads_spelled hkeys h.spelled

/-! ## Every list of entries can be written -/

theorem blanks_nil : Blanks [] := by
  intro x hx
  cases hx

theorem exists_items (as : List Atom) : ∃ t, Items as t := by
  induction as with
  | nil => exact ⟨[], .none⟩
  | cons a as ih =>
    by_cases hne : as = []
    · subst hne
      exact ⟨_, .last a blanks_nil⟩
    · obtain ⟨t, h⟩ := ih
      exact ⟨_, .next a blanks_nil blanks_nil hne h⟩

theorem exists_tail (w : Writing) (v : Assignment) : ∃ t, Tail w v t := by
  cases v with
  | absent => exact ⟨[], .absent⟩
  | one a => exact ⟨_, .given blanks_nil blanks_nil (.one a)⟩
  | list as =>
    obtain ⟨t, h⟩ := exists_items as
    exact ⟨_, .given blanks_nil blanks_nil (.list blanks_nil h)⟩

theorem exists_separates (w : Writing) : ∃ sep, Separates w sep := by
  cases w with
  | arrow => exact ⟨_, .arrow blanks_nil blanks_nil⟩
  | colon => exact ⟨_, .colon blanks_nil blanks_nil⟩
  | equals => exact ⟨[' '], .equals (by simp [Blanks, Text.isIndent]) (by simp)⟩

theorem exists_entries (w : Writing) (es : List Entry) : ∃ t, Entries w es t := by
  induction es with
  | nil => exact ⟨[], .none⟩
  | cons e es ih =>
    obtain ⟨t, ht⟩ := exists_tail w e.assignment
    by_cases hne : es = []
    · subst hne
      exact ⟨_, .last ht blanks_nil⟩
    · obtain ⟨sep, hsep⟩ := exists_separates w
      obtain ⟨t', h⟩ := ih
      exact ⟨_, .next ht hsep hne h⟩

/-- Every list of entries with different keys can be written in each of the three writings, and from
all its writings the same dictionary is read, up to the closing bracket and no further. -/
theorem dictionary_writings (s : Settings) (block : Text → Except Failure Text) (es : List Entry)
    (hkeys : (es.map (·.key)).Nodup) (w : Writing) :
    (∃ t, Written w es t) ∧ ∀ t, Written w es t → ∀ passed rest,
      dictionary s block ⟨passed, t ++ rest, 0, 0⟩ =
        .ok (Entry.dictionary s es) ⟨t.reverse ++ passed, rest, 0, 0⟩ := by
  constructor
  · obtain ⟨t, h⟩ := exists_entries w es
    exact ⟨_, .brackets blanks_nil h⟩
  · intro t h passed rest
    exact reads_dictionary hkeys h passed

/-- A text with quotes and a key without a value, with arrows and with equals signs. -/
theorem dictionary_writings_text : ∃ es : List Entry, (es.map (·.key)).Nodup ∧
    Written .arrow es "\x7b :a=>\t\"x\\\"\" , :b-c\x7d".toList ∧
    Written .equals es "(a = \"x\\\"\" b-c )".toList ∧
    ∀ passed rest, dictionary {} .ok ⟨passed, "(a = \"x\\\"\" b-c )".toList ++ rest, 0, 0⟩ =
      .ok [(['a'], .one (.text "x\"".toList)), ("b-c".toList, .one (.flag true))]
        ⟨"(a = \"x\\\"\" b-c )".toList.reverse ++ passed, rest, 0, 0⟩ := by
  let e : Entry := ⟨['a'], by decide, List.all_eq_true.mp (by decide),
    .one (.string '"' "x\"".toList (by decide) (List.all_iff_forall_prop.mp (by decide))
      (by decide))⟩
  let e' : Entry := ⟨"b-c".toList, by decide, List.all_eq_true.mp (by decide), .absent⟩
  have hspace : Blanks [' '] := by simp [Blanks, Text.isIndent]
  have htab : Blanks ['\t'] := by simp [Blanks, Text.isIndent]
  have hkeys : ([e, e'].map (·.key)).Nodup := by decide
  have harrow := Written.brackets hspace (.next (e := e) (.given blanks_nil htab (.one _))
    (.arrow hspace hspace) (by simp) (.last (e := e') .absent blanks_nil))
  have hequals := Written.brackets blanks_nil (.next (e := e) (.given hspace hspace (.one _))
    (.equals hspace (by simp)) (by simp) (.last (e := e') .absent hspace))
  exact ⟨[e, e'], hkeys, harrow, hequals, (dictionary_writings {} .ok _ hkeys .equals).2 _ hequals⟩

end Attribute

end Haml
