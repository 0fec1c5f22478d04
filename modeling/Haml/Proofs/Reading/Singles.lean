import Haml.Proofs.Reading.NodeLocality
import Haml.Proofs.Reading.Queries
import Haml.Proofs.Reading.Writings

/-!
Attributes that can be read alone: they are read before the closing bracket of their dictionary, and
the compiler of block values is not asked. Such an attribute is read alike before a comma in braces,
and before every border in parentheses, unless it has no value. All attributes with single values
and lists are of this kind.
-/
namespace Haml.Attribute

open Reader

/-! ## Brackets -/

inductive Style where
  | parens
  | braces
  deriving DecidableEq

namespace Style

def opening : Style → Char
  | parens => '('
  | braces => '\x7b'

def closing : Style → Char
  | parens => ')'
  | braces => '\x7d'

def entry (s : Settings) (block : Text → Except Failure Text) : Style → Reader (Text × Value)
  | parens => parenEntry s block
  | braces => bracedEntry s block

end Style

variable {s : Settings} {block : Text → Except Failure Text} {k : Style} {d : Attributes}
  {a t u p rest : Text} {e : Text × Value} {x y : Char}

/-! ## What attributes start with and end before -/

/-- Characters that belong to no word and to no key. -/
def borders : List Char := [' ', '\t', '\r', '\n', ',', '=', ')', '\x7d']

theorem border_spec (h : x ∈ borders) : Text.isWord x = false ∧ isKeyMark x = false ∧
    isDash x = false ∧ isQuote x = false ∧ (Text.isDigit x || x == '.') = false ∧ x ≠ ':' := by
  have hall : ∀ y ∈ borders, Text.isWord y = false ∧ isKeyMark y = false ∧ isDash y = false ∧
      isQuote y = false ∧ (Text.isDigit y || y == '.') = false ∧ y ≠ ':' :=
    List.all_iff_forall_prop.mp (by decide)
  exact hall x h

theorem not_border_spec (h : x ∉ borders) :
    Text.isIndent x = false ∧ Text.isGap x = false ∧ x ≠ '=' ∧ x ≠ ',' := by
  simp only [borders, List.mem_cons, not_or] at h
  simp [Text.isGap, Text.isIndent, h]

theorem Style.closing_mem (k : Style) : k.closing ∈ borders := by
  cases k <;> decide

/-- For all values, that a text starts with a character that belongs to no word. -/
abbrev Bordered {α : Type} : α → Text → Text → Prop := fun _ _ r => ∃ x ∈ borders, r.head? = some x

theorem local_number :
    Local Bordered (fun _ t _ => t = u.takeWhile fun c => Text.isDigit c || c == '.') number u := by
  intro p n c' hr
  obtain ⟨w, t, rest, hu, ⟨rfl, ht, -⟩, -, hr⟩ := (local_run _).exists_of_bind hr
  obtain ⟨x, _, rest', hrest, ⟨rfl, -⟩, -, hr⟩ := ahead_peek.exists_of_bind hr
  obtain rfl : rest = rest' := hrest
  cases hr
  refine ⟨n, rest, hu, rfl, ht, ?_⟩
  rintro r ⟨y, hy, hr⟩
  have hall : ∀ x ∈ n, (Text.isDigit x || x == '.') = true := by
    rw [ht]
    exact fun x hx => List.all_eq_true.mp List.all_takeWhile x hx
  exact reads_number hall hr (border_spec hy).2.2.2.2.1

/-- A single value is read alike before all of these characters. -/
theorem bordered_scalar : Local Bordered (fun _ t _ => t ≠ []) (scalar s) u := by
  refine ahead_peek.before fun x t rest _ hx => ?_
  obtain ⟨rfl, hx⟩ := hx
  refine .ite (fun _ => ?_) fun _ => .ite (fun hd => ?_) fun _ => ?_
  · refine (local_quotedString (A := Bordered)).carry fun _ t _ _ ht => local_pure ?_
    exact ⟨by simpa using ht, fun _ h => h⟩
  · refine local_number.carry fun n t rest _ ht => local_pure ?_
    obtain ⟨v, rfl⟩ := List.head?_eq_some_iff.mp hx
    exact ⟨by simp [ht, hd], fun _ h => h⟩
  · refine (local_wordRun _).carry fun w t rest _ ht => local_pure ?_
    refine ⟨by simpa using ht.1, ?_⟩
    rintro r ⟨y, hy, hr⟩ z hz
    obtain rfl : y = z := by simpa [hr] using hz
    simp [border_spec hy]

/-! ## Entries that are no blocks -/

def noBlock : Compilers := fun _ => .error .stalled

/-- What is read without block values is read so with any compiler of them. -/
theorem reads_of_noBlock {α : Type} {r : Compilers → Reader α} {b : α} (hr : Asking r)
    (h : Reads (r noBlock) t b rest) (block : Compilers) : Reads (r block) t b rest := by
  intro p
  apply (hr _).ok_of_le (h p)
  intro u html hu
  cases hu

theorem blockValue_noBlock {c c' : Cursor} : blockValue noBlock c ≠ .ok t c' := by
  intro hr
  obtain ⟨m, c₁, -, hr⟩ := exists_of_bind_eq_ok hr
  obtain ⟨steps, c₂, -, hr⟩ := exists_of_bind_eq_ok hr
  obtain ⟨ls, c₃, -, hr⟩ := exists_of_bind_eq_ok hr
  obtain ⟨_, c₄, -, hr⟩ := exists_of_bind_eq_ok hr
  cases hr

/-- A value that is no block is read alike before all of these characters. -/
theorem bordered_assigned (opens : Char → Bool) :
    Local Bordered (fun _ _ _ => True) (assigned s noBlock opens) u := by
  have hvalue : Local Bordered (fun _ t _ => t ≠ []) (assigned s noBlock opens) u := by
    refine ahead_indentation.before fun _ b u _ _ => ahead_expectInput.before fun _ t u _ _ => ?_
    refine ahead_peek.before fun x t' u _ hx => ?_
    refine .ite (fun _ => ?_) fun _ => .ite (fun _ => ?_) fun _ => ?_
    · intro p v c' hr
      obtain ⟨_, c₁, -, hr⟩ := exists_of_bind_eq_ok hr
      obtain ⟨html, c₂, hblock, -⟩ := exists_of_bind_eq_ok hr
      exact absurd hblock blockValue_noBlock
    · refine (local_list (A := Bordered)).carry fun vs t'' _ _ ht => local_pure ?_
      simp [ht]
    · refine bordered_scalar.carry fun v t'' _ _ ht => local_pure ?_
      simp [ht]
  exact hvalue.mono fun _ _ _ _ _ => trivial

/-- What is read after the key of an attribute: its value, if there is a sign before one. -/
def tail (s : Settings) (block : Compilers) (isSign : Char → Prop) [DecidablePred isSign]
    (sign : Text) (opens : Char → Bool) (key : Text) : Reader (Text × Value) := do
  let _ ← Reader.indentation
  if isSign (← Reader.peek) then
    let _ ← Reader.symbol [sign]
    return (key, ← assigned s block opens)
  else
    return (key, .one (.flag true))

theorem parenEntry_eq : parenEntry s block = (do
    let key ← Reader.word isKeyMark
    let c ← Reader.peek
    if !(Text.isIndent c || c == '=' || c == ')') then Reader.unexpected
    tail s block (· = '=') ['='] (· == '[') key) := rfl

def bracedKey (x : Char) : Reader Text :=
  if x = ':' then do
    Reader.skip
    Reader.word isDash
  else bareKey

theorem bracedEntry_eq : bracedEntry s block = (do
    let x ← Reader.peek
    let key ← bracedKey x
    tail s block (fun c => c = '=' ∨ c = ':') (if x = ':' then ['=', '>'] else [':'])
      (fun c => c == '(' || c == '[') key) := by
  apply bind_congr
  intro x
  by_cases hx : x = ':'
  · simp [bracedKey, hx, tail]
  · simp [bracedKey, hx, tail]

/-- How the reading after a key ends: before a character that is no sign, or with a value, which is
then read alike before all borders. -/
inductive Tailed (s : Settings) (isSign : Char → Prop) [DecidablePred isSign] (sign : Text)
    (opens : Char → Bool) (key : Text) : Text → Text → Text × Value → Prop
  | bare {b rest : Text} (hb : Blanks b) (y : Char) (hy : Text.isIndent y = false)
      (hsign : ¬ isSign y) :
      Tailed s isSign sign opens key b (y :: rest) (key, .one (.flag true))
  | valued {b t rest : Text} {v : Value} (hb : Blanks b) (hsign : ∃ y ∈ sign.head?, isSign y)
      (h : ∀ y ∈ borders, ∀ rest', Reads (tail s noBlock isSign sign opens key)
        (b ++ (sign ++ t)) (key, v) (y :: rest')) :
      Tailed s isSign sign opens key (b ++ (sign ++ t)) rest (key, v)

theorem tailed_of_tail {isSign : Char → Prop} [DecidablePred isSign] {sign : Text}
    {opens : Char → Bool} {key : Text} (hsign : sign ≠ []) {c' : Cursor}
    (h : tail s noBlock isSign sign opens key ⟨p, u, 0, 0⟩ = .ok e c') :
    ∃ t rest, u = t ++ rest ∧ c' = ⟨t.reverse ++ p, rest, 0, 0⟩ ∧
      Tailed s isSign sign opens key t rest e := by
  obtain ⟨_, b, u, rfl, ⟨-, hb, hu⟩, -, h⟩ := (local_run _).exists_of_bind h
  have hblanks : Blanks b := by
    rw [hb]
    exact fun x hx => List.all_eq_true.mp List.all_takeWhile x hx
  obtain ⟨y, _, u, rfl, ⟨rfl, hy⟩, -, h⟩ := ahead_peek.exists_of_bind h
  have hindent : Text.isIndent y = false := by
    apply head?_dropWhile
    rw [← hu]
    exact hy
  -- the character after the blanks decides whether there is a value
  by_cases hmark : isSign y
  · rw [if_pos hmark] at h
    obtain ⟨_, _, u, rfl, rfl, -, h⟩ :=
      (local_symbol (A := fun _ _ _ => True) sign).exists_of_bind h
    obtain ⟨v, t, rest, rfl, -, hreads, h⟩ := (bordered_assigned opens).exists_of_bind h
    cases h
    obtain ⟨z, sign, rfl⟩ := List.exists_cons_of_ne_nil hsign
    obtain rfl : z = y := by simpa using hy
    refine ⟨b ++ (z :: sign ++ t), rest, by simp, by simp, .valued hblanks ⟨z, rfl, hmark⟩ ?_⟩
    intro x hx rest'
    have hvalue := (hreads (x :: rest') ⟨x, hx, rfl⟩).map fun v => (key, v)
    refine (reads_blanks hblanks ?_).bind ((reads_peek rfl).look (.ite_pos hmark ?_))
    · simp [hindent]
    · exact (reads_symbol (z :: sign) (t ++ x :: rest')).bind hvalue
  · rw [if_neg hmark] at h
    cases h
    obtain ⟨rest, rfl⟩ := List.head?_eq_some_iff.mp hy
    exact ⟨b, y :: rest, rfl, rfl, .bare hblanks y hindent hmark⟩

/-! ## Attributes that are read alone -/

/-- An attribute as it is written: it is read before the closing bracket without the help of the
compiler of block values, and it does not end with a blank. -/
structure Single (s : Settings) (k : Style) (a : Text) (e : Text × Value) : Prop where
  reads : ∀ block, Reads (k.entry s block) a e [k.closing]
  ending : ∀ x, a.getLast? = some x → Text.isIndent x = false

theorem cursor_inj {t t' r r' : Text} (h : (⟨t.reverse ++ p, r, 0, 0⟩ : Cursor) =
    ⟨t'.reverse ++ p, r', 0, 0⟩) : t = t' ∧ r = r' := by
  injection h with hpassed hrest
  exact ⟨List.reverse_injective (List.append_cancel_right hpassed), hrest⟩

theorem not_border_of_key (h : (Text.isWord x || isKeyMark x) = true) : x ∉ borders := by
  intro hx
  simp [border_spec hx] at h

/-- The blanks that a key without a value ends with belong to no attribute. -/
theorem Single.eq_nil_of_blanks {key b : Text} (h : Single s k (key ++ b) e) (hb : Blanks b) :
    b = [] := by
  apply List.eq_nil_iff_forall_not_mem.mpr
  intro x hx
  have hne : b ≠ [] := List.ne_nil_of_mem hx
  have hlast : (key ++ b).getLast? = some (b.getLast hne) := by
    rw [List.getLast?_append_of_ne_nil _ hne, List.getLast?_eq_getLast_of_ne_nil]
  have hindent := h.ending _ hlast
  rw [hb _ (List.getLast_mem hne)] at hindent
  cases hindent

/-- In parentheses, an attribute is a key only, or it has an equals sign and is read alike before
all borders. -/
theorem Single.parens (h : Single s .parens a e) :
    (∃ x ∈ a.head?, x ∉ borders) ∧
    ('=' ∉ a ∧ e = (a, .one (.flag true)) ∧ (∀ x ∈ a, (Text.isWord x || isKeyMark x) = true) ∨
      '=' ∈ a ∧ ∀ y ∈ borders, ∀ rest, Reads (parenEntry s noBlock) a e (y :: rest)) := by
  have hr : parenEntry s noBlock ⟨[], a ++ [')'], 0, 0⟩ = .ok e ⟨a.reverse ++ [], [')'], 0, 0⟩ :=
    h.reads noBlock []
  -- the key is read first, then the sign and the value or nothing
  rw [parenEntry_eq] at hr
  obtain ⟨key, _, u, hu, ⟨hne, rfl, hall, hafter⟩, hreads, hr⟩ :=
    (local_wordRun _).exists_of_bind hr
  obtain ⟨x, _, u, rfl, ⟨rfl, hx⟩, -, hr⟩ := ahead_peek.exists_of_bind hr
  by_cases hguard : (!(Text.isIndent x || x == '=' || x == ')')) = true
  · rw [if_pos hguard] at hr
    obtain ⟨_, _, _, _, hfalse, -⟩ :=
      (local_unexpected (n := 0) (J := fun _ _ _ => False)).exists_of_bind hr
    exact hfalse.elim
  rw [if_neg hguard] at hr
  obtain ⟨t, rest, rfl, hc, htail⟩ := tailed_of_tail (by simp) hr
  obtain ⟨rfl, rfl⟩ : a = key ++ t ∧ [')'] = rest := by
    apply cursor_inj (p := [])
    rw [hc]
    simp
  have hfirst : ∃ x ∈ (key ++ t).head?, x ∉ borders := by
    obtain ⟨z, key, rfl⟩ := List.exists_cons_of_ne_nil hne
    exact ⟨z, rfl, not_border_of_key (hall z (by simp))⟩
  refine ⟨hfirst, ?_⟩
  cases htail with
  | bare hb y hy hsign =>
    -- blanks after a bare key would be passed over with it, but the attribute does not end with any
    obtain rfl := h.eq_nil_of_blanks hb
    rw [List.append_nil]
    refine .inl ⟨fun hmem => ?_, rfl, hall⟩
    exact not_border_of_key (hall _ hmem) (by decide)
  | @valued b t _ v hb hsign hvalue =>
    refine .inr ⟨by simp, fun y hy rest => ?_⟩
    have hx' : (b ++ (['='] ++ t) ++ y :: rest).head? = some x := by
      rw [← hx]
      cases b <;> rfl
    rw [parenEntry_eq]
    apply (hreads _ fun z hz => hafter z (by rw [← hz]; cases b <;> rfl)).bind
    exact (reads_peek hx').look (.ite_neg hguard (hvalue y hy rest))

/-- The key of an attribute in braces is read alike before all characters that belong to no key. -/
theorem local_bracedKey (hx : u.head? = some x) :
    Local (fun _ _ r => ∀ y, r.head? = some y → (Text.isWord y || isDash y) = false)
      (fun _ t _ => t ≠ [] ∧ x ∉ borders) (bracedKey x) u := by
  refine .ite (fun hcolon => ?_) fun _ => ?_
  · have hborder : x ∉ borders := fun h => (border_spec h).2.2.2.2.2 hcolon
    refine (local_skip (A := fun _ _ _ => True) (ne_nil_of_head? hx)).carry fun _ t rest _ ht => ?_
    exact (local_wordRun _).mono fun w t' rest' _ _ => ⟨⟨by simp [ht], hborder⟩, fun _ _ => trivial⟩
  · refine ahead_peek.before fun y t rest hu hy => ?_
    obtain ⟨rfl, hy⟩ := hy
    obtain rfl : y = x := by
      rw [hu, List.nil_append, hy] at hx
      exact Option.some.inj hx
    refine .ite (fun hquote => ?_) fun _ => ?_
    · have hborder : y ∉ borders := by
        intro h
        simp [border_spec h] at hquote
      refine (local_quotedString (A := fun _ _ _ => True)).carry fun key t rest _ ht => ?_
      exact .ite (fun _ => local_reject) fun _ => local_pure (by simp [ht, hborder])
    · refine (local_wordRun _).mono fun w t rest hrest hw => ?_
      refine ⟨⟨by simp [hw.1], fun hborder => ?_⟩, hw.1⟩
      obtain ⟨z, t, rfl⟩ := List.exists_cons_of_ne_nil hw.1
      obtain rfl : z = y := by simpa [hrest] using hy
      simpa [border_spec hborder] using hw.2.2.1 z (by simp)

/-- Blanks and signs end a key in braces. -/
theorem keyEnd_blanks {b : Text} (hb : Blanks b) (hy : y ∈ ':' :: borders) (rest : Text) :
    ∀ x, (b ++ y :: rest).head? = some x → (Text.isWord x || isDash x) = false := by
  have hall : ∀ x ∈ ':' :: borders, (Text.isWord x || isDash x) = false :=
    List.all_iff_forall_prop.mp (by decide)
  obtain ⟨z, hz, hborder⟩ := head?_blanks (by decide) hb hy rest
  intro x hx
  rw [hz] at hx
  cases hx
  exact hall z hborder

/-- In braces, an attribute is read alike before a comma and before the closing brace. -/
theorem Single.braces (h : Single s .braces a e) :
    (∃ x ∈ a.head?, x ∉ borders) ∧
    ∀ y, y = ',' ∨ y = '\x7d' → ∀ rest, Reads (bracedEntry s noBlock) a e (y :: rest) := by
  have hr : bracedEntry s noBlock ⟨[], a ++ ['\x7d'], 0, 0⟩ =
      .ok e ⟨a.reverse ++ [], ['\x7d'], 0, 0⟩ := h.reads noBlock []
  rw [bracedEntry_eq] at hr
  obtain ⟨x, _, u, hu, ⟨rfl, hx⟩, -, hr⟩ := ahead_peek.exists_of_bind hr
  obtain ⟨key, w, u, rfl, ⟨hne, hborder⟩, hreads, hr⟩ := (local_bracedKey hx).exists_of_bind hr
  obtain ⟨t, rest, rfl, hc, htail⟩ := tailed_of_tail (by split <;> simp) hr
  obtain ⟨rfl, rfl⟩ : a = w ++ t ∧ ['\x7d'] = rest := by
    apply cursor_inj (p := [])
    rw [hc]
    simp
  have hfirst (r : Text) : (w ++ r).head? = some x := by
    obtain ⟨z, w, rfl⟩ := List.exists_cons_of_ne_nil hne
    simpa using hx
  refine ⟨⟨x, by simpa using hfirst t, hborder⟩, fun y hy rest => ?_⟩
  have hend : y ∈ borders ∧ Text.isIndent y = false ∧ ¬ (y = '=' ∨ y = ':') := by
    obtain rfl | rfl := hy <;> decide
  rw [bracedEntry_eq]
  apply (reads_peek (by rw [List.append_assoc]; exact hfirst _)).look
  cases htail with
  | bare hb z hz hsign =>
    apply (hreads _ (keyEnd_blanks hb (List.mem_cons_of_mem _ hend.1) rest)).bind
    refine Reads.last (reads_blanks hb ?_) ?_
    · simp [hend.2.1]
    · exact (reads_peek rfl).look (.ite_neg hend.2.2 (reads_pure _ _))
  | @valued b t _ v hb hsign hvalue =>
    obtain ⟨z, hz, hsign⟩ := hsign
    obtain ⟨sign, hsign'⟩ := List.head?_eq_some_iff.mp hz
    have hz' : z ∈ ':' :: borders := by obtain rfl | rfl := hsign <;> decide
    refine (hreads _ ?_).bind (hvalue y hend.1 rest)
    rw [hsign']
    simpa using keyEnd_blanks hb hz' (sign ++ t ++ y :: rest)

theorem Single.exists_head (h : Single s k a e) : ∃ x ∈ a.head?, x ∉ borders := by
  cases k with
  | parens => exact h.parens.1
  | braces => exact h.braces.1

/-- A single value does not end with a blank. -/
theorem Atom.getLast_written (v : Atom) :
    ∃ x, v.written.getLast? = some x ∧ Text.isIndent x = false := by
  have hlast {w : Text} (hne : w ≠ []) (hw : ∀ x ∈ w, x ∉ borders) :
      ∃ x, w.getLast? = some x ∧ Text.isIndent x = false :=
    ⟨w.getLast hne, List.getLast?_eq_getLast_of_ne_nil hne,
      (not_border_spec (hw _ (List.getLast_mem hne))).1⟩
  have hword {x : Char} (hx : Text.isWord x = true) : x ∉ borders :=
    not_border_of_key (by simp [hx])
  cases v with
  | keyword kind w spelling =>
    obtain ⟨hne, hletters⟩ := Keyword.word spelling
    exact hlast hne fun x hx => hword (hletters x hx).1
  | number first more digit digits =>
    apply hlast (List.cons_ne_nil first more)
    intro x hx hborder
    have hdigit : (Text.isDigit x || x == '.') = true := by
      obtain rfl | hx := List.mem_cons.mp hx
      · simp [digit]
      · exact digits x hx
    rw [(border_spec hborder).2.2.2.2.1] at hdigit
    cases hdigit
  | var w ne_nil word start plain => exact hlast ne_nil fun x hx => hword (word x hx)
  | string q t quote nul ending =>
    have hborder : q ∉ borders := by
      intro h
      simp [border_spec h] at quote
    exact ⟨q, by simp [Atom.written, Text.quoted, List.getLast?_cons], (not_border_spec hborder).1⟩

def Writing.style : Writing → Style
  | arrow | colon => .braces
  | equals => .parens

theorem Entry.getLast_key (e : Entry) :
    ∃ x, e.key.getLast? = some x ∧ Text.isIndent x = false := by
  refine ⟨e.key.getLast e.ne_nil, List.getLast?_eq_getLast_of_ne_nil e.ne_nil, ?_⟩
  have hborder : e.key.getLast e.ne_nil ∉ borders := by
    intro h
    have hletter := e.letters _ (List.getLast_mem e.ne_nil)
    simp [border_spec h] at hletter
  exact (not_border_spec hborder).1

/-- All attributes without a value and with a string, a number, a variable or a list as their value
can be read alone. -/
theorem single_of_suffixed {w : Writing} {e : Entry} {t : Text} (h : Suffixed w e.assignment t) :
    Single s w.style (w.mark ++ e.key ++ t) (e.key, e.assignment.value s) where
  reads block := by
    by_cases hw : w = .equals
    · subst hw
      obtain ⟨b₁, b₂, hb, -, hreads⟩ :=
        @reads_parenEntry s block e t [] _ h blanks_nil (.inl rfl) []
      obtain ⟨rfl, rfl⟩ := List.append_eq_nil_iff.mp hb.symm
      rw [List.append_nil] at hreads
      exact hreads
    · obtain ⟨b₁, b₂, hb, -, hreads⟩ :=
        @reads_bracedEntry s block w e t [] _ hw h blanks_nil (.inr rfl) []
      obtain ⟨rfl, rfl⟩ := List.append_eq_nil_iff.mp hb.symm
      rw [List.append_nil] at hreads
      cases w with
      | equals => exact absurd rfl hw
      | arrow => exact hreads
      | colon => exact hreads
  ending := by
    have hend : ∃ x, (w.mark ++ e.key ++ t).getLast? = some x ∧ Text.isIndent x = false := by
      generalize e.assignment = v at h
      cases h with
      | absent =>
        obtain ⟨x, hx, hindent⟩ := e.getLast_key
        exact ⟨x, by simp [List.getLast?_append, hx], hindent⟩
      | given hb hb' hv =>
        cases hv with
        | one v =>
          obtain ⟨x, hx, hindent⟩ := v.getLast_written
          exact ⟨x, by simp [List.getLast?_append, hx], hindent⟩
        | @list bracket b t vs _ _ _ =>
          refine ⟨bracket.closing, ?_, bracket.closing_mem.2.2.1⟩
          simp [List.getLast?_append, List.getLast?_cons]
    obtain ⟨y, hy, hindent⟩ := hend
    intro x hx
    rw [hy] at hx
    cases hx
    exact hindent

end Haml.Attribute
