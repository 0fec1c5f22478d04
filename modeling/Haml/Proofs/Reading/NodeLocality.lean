import Haml.Proofs.Reading.Locality
import Haml.Proofs.Reading.Nodes

/-!
What the readers of attributes, elements and nodes look at. Dictionaries look no further than the
end of the line in which they stop, elements not even beyond the line break that they pass over, and
filters only at the indentation of the line after them.
-/
namespace Haml

namespace Attribute

open Reader

variable {n : Nat} {u : Text} {s : Settings} {block : Text → Except Failure Text}

theorem ahead_scalar : Local Ahead (fun _ t _ => t ≠ []) (scalar s) u := by
  refine ahead_peek.ahead fun x t rest _ hx => ?_
  obtain ⟨rfl, hx⟩ := hx
  refine .ite (fun _ => ?_) fun _ => .ite (fun hd => ?_) fun _ => ?_
  · exact local_quotedString.ahead fun _ t _ _ ht => local_pure (by simpa using ht)
  · refine Local.ahead (J := fun _ t _ => t ≠ []) ?_ fun _ t _ _ ht =>
      local_pure (by simpa using ht)
    refine (ahead_takeWhile _).ahead fun w t rest' _ hw => ?_
    refine ahead_peek.ahead fun y t' rest'' _ hy => local_pure ?_
    obtain ⟨v, rfl⟩ := List.head?_eq_some_iff.mp hx
    simp [hw.2, hd]
  · exact (ahead_word _).ahead fun _ t _ _ ht => local_pure (by simpa using ht)

theorem local_scalar : Local (Near n) (fun _ t _ => t ≠ []) (scalar s) u :=
  ahead_scalar.near

theorem ahead_itemTurn (close : Char) :
    Local Ahead (Item fun _ rest => rest.head? = some close) (itemTurn s close) u := by
  refine ahead_indentation.ahead fun _ b rest _ _ => ?_
  refine ahead_peek.ahead fun x t rest₁ _ hx => ?_
  obtain ⟨rfl, hx⟩ := hx
  refine .ite (fun hclose => local_pure (show _ from hclose ▸ hx)) fun _ => ?_
  refine ahead_scalar.ahead fun v t rest₂ _ ht => ?_
  refine ahead_indentation.ahead fun _ b' rest₃ _ _ => ?_
  refine ahead_peek.ahead fun y t' rest₄ _ hy => ?_
  refine .ite (fun _ => ?_) fun _ => local_pure (by simp [Item, ht])
  exact (local_symbol _).ahead fun _ _ _ _ _ => local_pure (by simp [Item, ht])

theorem ahead_items (close : Char) :
    Local Ahead (fun _ _ rest => rest.head? = some close)
      (do items s close (← Reader.allowance)) u := by
  simp only [items_eq]
  exact local_gathered (fun t _ _ h => head?_append_congr h t) fun _ => ahead_itemTurn close

/-- A list is read up to its closing bracket, whatever follows. -/
theorem local_list {A : List Scalar → Text → Text → Prop} :
    Local A (fun _ t _ => t ≠ []) (list s) u := by
  refine ahead_peek.before fun x t rest _ hx => ?_
  obtain ⟨rfl, hx⟩ := hx
  refine .ite (fun _ => ?_) fun _ => local_throw
  refine (local_skip (ne_nil_of_head? hx)).before fun _ t _ _ ht => ?_
  rw [← bind_assoc]
  refine (ahead_items _).before fun vs t' rest _ hr => ?_
  refine (local_skip (A := fun _ _ _ => True) (ne_nil_of_head? hr)).carry fun _ t'' _ _ ht' => ?_
  exact local_pure (by simp [ht, ht'])

theorem local_blankToEmpty :
    Local (fun _ => Loose) (fun o t rest => (∃ l, o = some l) ∧ EndsLine t rest ∧ (t = [] → u = []))
      (do return some (blankToEmpty (← Reader.line)) : Reader (Option Text)) u := by
  refine local_line.carry fun l t rest hu hl => ?_
  refine local_pure ⟨⟨⟨_, rfl⟩, by simpa using hl⟩, fun s hs => by simpa using hs⟩

theorem local_blockTurn (margin : Option Nat) :
    Local (Near 0) (Item fun _ rest => margin? rest ≠ .ok margin) (blockTurn margin) u := by
  refine local_atEnd.bind fun b t rest _ hb => ?_
  obtain ⟨rfl, hb⟩ := hb
  refine .ite (fun hend => local_pure ?_) fun hend => ?_
  · simp [Item, hb.mp hend, margin?]
  have hline : Local (Near 0) (Item fun _ rest => margin? rest ≠ .ok margin)
      (do return some (blankToEmpty (← Reader.line)) : Reader (Option Text)) rest := by
    refine (local_blankToEmpty.narrow fun _ _ _ h => h.loose).mono fun o t rest _ ho => ?_
    obtain ⟨⟨l, rfl⟩, _, hne⟩ := ho
    exact fun ht => hend (hb.mpr (hne ht))
  refine local_peekMargin.bind fun m t rest₁ hu hm => ?_
  obtain ⟨rfl, hm⟩ := hm
  obtain rfl : rest = rest₁ := hu
  cases m with
  | none => exact hline
  | some m =>
    cases margin with
    | none => exact local_throw
    | some least =>
      refine .ite (fun hlt => local_pure ?_) fun _ => hline
      simp only [Item, hm]
      intro he
      obtain rfl : m = least := by simpa using he
      omega

/-- The lines of a block value: there is at least one. -/
theorem local_block : Local (Near 0) (fun _ t _ => t ≠ [])
    (do
      let margin ← Reader.peekMargin
      blockLines margin (← Reader.allowance)) u := by
  refine local_peekMargin.bind fun m t rest hu hm => ?_
  obtain ⟨rfl, hm⟩ := hm
  simp only [blockLines_eq]
  refine (local_gathered (R := Agree 0) (fun t _ _ h => h.append t) fun _ => local_blockTurn m).mono
    fun ls t rest' hrest hend => ?_
  rintro rfl
  obtain rfl : rest = rest' := hrest
  exact hend hm

/-- A block value ends before the line break after it, and has seen the margin of the next line. -/
theorem local_blockValue : Local (Near 1) (fun _ _ _ => True) (blockValue block) u := by
  intro p a c' hr
  obtain ⟨m, c₁, hm, hr⟩ := exists_of_bind_eq_ok hr
  obtain ⟨steps, c₂, hsteps, hr⟩ := exists_of_bind_eq_ok hr
  obtain ⟨ls, c₃, hls, hr⟩ := exists_of_bind_eq_ok hr
  have hlines := bind_of_ok (f := fun m => do blockLines m (← Reader.allowance)) hm
  rw [bind_of_ok hsteps, hls] at hlines
  obtain ⟨t, rest, rfl, rfl, hne, hreads⟩ := local_block p ls c₃ hlines
  obtain ⟨t, x, rfl⟩ : ∃ t' x, t = t' ++ [x] := by
    obtain rfl | ⟨t', x, h⟩ := List.eq_nil_or_concat t
    · exact absurd rfl hne
    · exact ⟨t', x, by simpa using h⟩
  have hback : ∀ q s, Reader.unread ⟨(t ++ [x]).reverse ++ q, s, 0, 0⟩ =
      .ok () ⟨t.reverse ++ q, x :: s, 0, 0⟩ := by
    intro q s
    simp [Reader.unread, Cursor.back]
  rw [bind_of_ok (hback p rest)] at hr
  cases hb : block (Text.unlines ls) with
  | error e =>
    rw [hb] at hr
    cases hr
  | ok html =>
    rw [hb] at hr
    cases hr
    refine ⟨t, x :: rest, by simp, rfl, trivial, fun rest' h q => ?_⟩
    obtain ⟨s, rfl, hs⟩ := h.tail
    have hread := hreads s hs q
    rw [List.append_assoc, List.singleton_append] at hread
    obtain ⟨m, c₁, hm, hread⟩ := exists_of_bind_eq_ok hread
    obtain ⟨steps, c₂, hsteps, hread⟩ := exists_of_bind_eq_ok hread
    rw [blockValue, bind_of_ok hm, bind_of_ok hsteps, bind_of_ok hread, bind_of_ok (hback q s), hb]
    rfl

theorem local_assigned {opens : Char → Bool} :
    Local (Near 1) (fun _ _ _ => True) (assigned s block opens) u := by
  refine local_indentation.bind fun _ _ _ _ _ => ?_
  refine local_expectInput.bind fun _ _ _ _ _ => ?_
  refine local_peek.bind fun x t rest _ hx => ?_
  refine .ite (fun _ => ?_) fun _ => .ite (fun _ => ?_) fun _ => ?_
  · refine (local_skip (ne_nil_of_head? hx.2)).bind fun _ _ _ _ _ => ?_
    exact local_blockValue.bind fun _ _ _ _ _ => local_pure trivial
  · exact local_list.bind fun _ _ _ _ _ => local_pure trivial
  · exact local_scalar.bind fun _ _ _ _ _ => local_pure trivial

theorem local_bareKey : Local (Near n) (fun _ t _ => t ≠ []) bareKey u := by
  refine local_peek.bind fun x t rest _ hx => ?_
  obtain ⟨rfl, _⟩ := hx
  refine .ite (fun _ => ?_) fun _ => local_word _
  refine local_quotedString.bind fun key t _ _ ht => ?_
  exact .ite (fun _ => local_reject) fun _ => local_pure (by simpa using ht)

theorem local_bracedEntry : Local (Near 1) (fun _ t _ => t ≠ []) (bracedEntry s block) u := by
  refine local_peek.bind fun x t rest _ hx => ?_
  obtain ⟨rfl, hx⟩ := hx
  have hafter : ∀ key t' rest' : Text, t' ≠ [] → Local (Near 1) (fun _ t _ => [] ++ (t' ++ t) ≠ []) (do
      let _ ← Reader.indentation
      let c ← Reader.peek
      if c = '=' ∨ c = ':' then
        let _ ← Reader.symbol [if x = ':' then ['=', '>'] else [':']]
        return (key, ← assigned s block fun c => c == '(' || c == '[')
      else
        return (key, .one (.flag true))) rest' := by
    intro key t' rest' ht
    refine local_indentation.bind fun _ _ _ _ _ => ?_
    refine local_peek.bind fun y _ _ _ _ => ?_
    refine .ite (fun _ => ?_) fun _ => local_pure (by simp [ht])
    refine (local_symbol _).bind fun _ _ _ _ _ => ?_
    exact local_assigned.bind fun _ _ _ _ _ => local_pure (by simp [ht])
  refine .ite (fun _ => ?_) fun _ => ?_
  · refine (local_skip (ne_nil_of_head? hx)).bind fun _ t _ _ ht => ?_
    refine (local_word _).bind fun key t' rest' _ _ => ?_
    simpa using hafter key (t ++ t') rest' (by simp [ht])
  · exact local_bareKey.bind fun key t rest' _ ht => hafter key t rest' ht

theorem local_parenEntry : Local (Near 1) (fun _ t _ => t ≠ []) (parenEntry s block) u := by
  refine (local_word _).bind fun key t rest _ ht => ?_
  refine local_peek.bind fun x _ _ _ _ => ?_
  refine .ite (fun _ => ?_) fun _ => ?_
  · exact local_unexpected.bind (J := fun _ _ _ => False) fun _ _ _ _ h => h.elim
  · refine local_indentation.bind fun _ _ _ _ _ => ?_
    refine local_peek.bind fun y _ _ _ _ => ?_
    refine .ite (fun _ => ?_) fun _ => local_pure (by simp [ht])
    refine (local_symbol _).bind fun _ _ _ _ _ => ?_
    exact local_assigned.bind fun _ _ _ _ _ => local_pure (by simp [ht])

theorem local_record (d : Attributes) (entry : Text × Value) :
    Local (Near n) (fun _ _ _ => True) (record d entry) u :=
  .ite (fun _ => local_reject) fun _ => local_pure trivial

/-- An entry has looked at the line after it if its value is a block; the closing bracket has not. -/
def afterEntry : Attributes ⊕ Attributes → Text → Text → Prop
  | .inl _ => Agree 1
  | .inr _ => Agree 0

theorem agree_of_afterEntry {r : Attributes ⊕ Attributes} {rest rest' : Text}
    (h : afterEntry r rest rest') : Agree 0 rest rest' := by
  cases r with
  | inl _ => exact h.weaken
  | inr _ => exact h

/-- One turn in a dictionary: the closing bracket, or an entry. -/
theorem local_turn {close : Char} {d : Attributes} {entry : Reader (Attributes ⊕ Attributes)}
    (hentry : ∀ u, Local (Near 1) (fun r t _ => (∃ d', r = .inl d') ∧ t ≠ []) entry u) :
    Local afterEntry (fun _ t _ => t ≠ []) (do
      let _ ← Reader.gap
      if ← Reader.atEnd then Reader.reject .unterminatedDictionary
      if (← Reader.peek) = close then
        Reader.skip
        return .inr d
      entry) u := by
  have hagree : ∀ r rest rest', afterEntry r rest rest' → Agree 0 rest rest' :=
    fun _ _ _ => agree_of_afterEntry
  refine local_gap.into hagree fun _ b rest _ _ => ?_
  refine local_atEnd.into hagree fun e t rest _ he => ?_
  refine .ite (fun _ => local_reject) fun _ => ?_
  refine local_peek.into hagree fun x t' rest' _ hx => ?_
  refine .ite (fun _ => ?_) fun _ => ?_
  · refine (local_skip (ne_nil_of_head? hx.2)).into hagree fun _ t'' _ _ ht => ?_
    exact local_pure (by simp [ht])
  · intro p r c' hr
    obtain ⟨t'', rest'', hu, hc, ⟨⟨d', rfl⟩, ht⟩, hreads⟩ := hentry rest' p r c' hr
    exact ⟨t'', rest'', hu, hc, by simp [ht], hreads⟩

theorem local_parenTurn (d : Attributes) :
    Local afterEntry (fun _ t _ => t ≠ []) (parenTurn s block d) u := by
  refine local_turn fun u => ?_
  refine local_parenEntry.bind fun entry t rest _ ht => ?_
  refine (local_record _ _).bind fun d' _ _ _ _ => ?_
  refine local_indentation.bind fun _ _ _ _ _ => ?_
  refine local_peek.bind fun _ _ _ _ _ => ?_
  exact .ite (fun _ => local_reject) fun _ => local_pure ⟨⟨_, rfl⟩, by simp [ht]⟩

theorem local_bracedTurn (d : Attributes) :
    Local afterEntry (fun _ t _ => t ≠ []) (bracedTurn s block d) u := by
  refine local_turn fun u => ?_
  refine local_bracedEntry.bind fun entry t rest _ ht => ?_
  refine (local_record _ _).bind fun d' _ _ _ _ => ?_
  refine local_indentation.bind fun _ _ _ _ _ => ?_
  refine local_peek.bind fun _ _ _ _ _ => ?_
  refine .ite (fun _ => ?_) fun _ => local_pure ⟨⟨_, rfl⟩, by simp [ht]⟩
  exact (local_symbol _).bind fun _ _ _ _ _ => local_pure ⟨⟨_, rfl⟩, by simp [ht]⟩

/-- The entries up to the closing bracket. The turns before the last one see what that one passes
over, so nothing after the bracket matters but the rest of its line. -/
theorem local_entries {turn : Attributes → Reader (Attributes ⊕ Attributes)}
    (hturn : ∀ d u, Local afterEntry (fun _ t _ => t ≠ []) (turn d) u) (d : Attributes) :
    Local (Near 0) (fun _ t _ => t ≠ []) (do iterate turn (← Reader.allowance) d) u := by
  refine local_loop (A := afterEntry) (fun d u => (hturn d u).mono fun r t rest _ ht => ?_)
    (fun _ _ t _ _ ht h => h.behind ht) (fun _ _ _ _ ht => by simp [ht]) d
  cases r with
  | inl _ => exact ht
  | inr _ => exact ht

theorem local_dictionary : Local (Near 0) (fun _ t _ => t ≠ []) (dictionary s block) u := by
  refine local_peek.bind fun x t rest _ hx => ?_
  obtain ⟨rfl, hx⟩ := hx
  refine .ite (fun _ => ?_) fun _ => .ite (fun _ => ?_) fun _ => local_throw
  · refine (local_skip (ne_nil_of_head? hx)).bind fun _ t _ _ ht => ?_
    simp only [parenEntries_eq]
    exact (local_entries (fun d _ => local_parenTurn d) []).mono fun _ _ _ _ _ => by simp [ht]
  · refine (local_skip (ne_nil_of_head? hx)).bind fun _ t _ _ ht => ?_
    simp only [bracedEntries_eq]
    exact (local_entries (fun d _ => local_bracedTurn d) []).mono fun _ _ _ _ _ => by simp [ht]

end Attribute

namespace Element

open Attribute (isDash)
open Reader

variable {n : Nat} {u : Text} {s : Settings} {block : Text → Except Failure Text}

theorem local_tagName : Local (Near n) (fun _ _ _ => True) tagName u := by
  refine (local_word _).bind fun name _ _ _ _ => ?_
  refine (local_accept ':').bind fun b _ _ _ _ => ?_
  refine .ite (fun _ => ?_) fun _ => local_pure trivial
  exact (local_word _).bind fun _ _ _ _ _ => local_pure trivial

theorem local_shortcutTurn (r : Option Text × List Scalar) :
    Local (Near n) (Step fun _ _ _ => True) (shortcutTurn r) u := by
  refine (local_accept '#').bind fun b t rest _ _ => ?_
  refine .ite (fun _ => ?_) fun _ => ?_
  · exact (local_word _).bind fun _ t' _ _ ht => local_pure (by simp [Step, ht])
  · refine (local_accept '.').bind fun b' t' rest' _ _ => ?_
    refine .ite (fun _ => ?_) fun _ => local_pure trivial
    exact (local_word _).bind fun _ t'' _ _ ht => local_pure (by simp [Step, ht])

theorem local_shortcuts :
    Local (Near n) (fun _ _ _ => True) (do shortcuts (← Reader.allowance) none []) u := by
  simp only [shortcuts_eq]
  exact local_loop (A := Near n) (fun r _ => local_shortcutTurn r) (fun _ _ t _ _ _ h => h.append t)
    (fun _ _ _ _ h => h) _

theorem local_dictionaryTurn (d : Attributes) :
    Local (Near 0) (Step fun _ _ _ => True) (dictionaryTurn s block d) u := by
  refine local_peek?.bind fun o t rest _ ho => ?_
  split
  · exact Attribute.local_dictionary.bind fun _ t' _ _ ht => local_pure (by simp [Step, ht])
  · exact Attribute.local_dictionary.bind fun _ t' _ _ ht => local_pure (by simp [Step, ht])
  · exact local_pure trivial

theorem local_dictionaries :
    Local (Near 0) (fun _ _ _ => True) (do dictionaries s block (← Reader.allowance) []) u := by
  simp only [dictionaries_eq]
  exact local_loop (A := Near 0) (fun d _ => local_dictionaryTurn d)
    (fun _ _ t _ _ _ h => h.append t) (fun _ _ _ _ h => h) _

/-- A character after the point is in its line. -/
theorem local_isBarePoint (hu : u.head? = some '.') :
    Local (Near 0) (fun _ t _ => t = []) isBarePoint u := by
  obtain ⟨v, rfl⟩ := List.head?_eq_some_iff.mp hu
  cases v with
  | nil =>
    intro p a c' hr
    cases hr
  | cons d v =>
    have hread : ∀ v, Reads isBarePoint [] (!(Text.isWord d || isDash d)) ('.' :: d :: v) :=
      fun _ _ => rfl
    refine (hread v).local rfl fun rest' h => ?_
    obtain rfl | ⟨w, s, s', hw, rfl, hbreak⟩ := h
    · exact hread v
    · match w with
      | [] => simp at hbreak
      | [x] =>
        obtain rfl : '.' = x := by simpa using congrArg List.head? hw
        simp at hbreak
      | x :: y :: w =>
        obtain ⟨rfl, rfl, _⟩ : '.' = x ∧ d = y ∧ v = w ++ s := by simpa using hw
        exact hread _

theorem local_opening : Local (Near 0) (fun _ _ _ => True) opening u := by
  refine local_peek.bind fun x t rest _ hx => ?_
  obtain ⟨rfl, hx⟩ := hx
  refine .ite (fun _ => ?_) fun _ => .ite (fun hpoint => ?_) fun _ => .ite (fun _ => ?_) fun _ => ?_
  · refine (local_skip (ne_nil_of_head? hx)).bind fun _ _ _ _ _ => ?_
    exact local_tagName.bind fun _ _ _ _ _ => local_pure trivial
  · subst hpoint
    refine (local_isBarePoint hx).bind fun b t rest' hu ht => ?_
    subst ht
    obtain rfl : rest = rest' := hu
    refine .ite (fun _ => ?_) fun _ => local_pure trivial
    exact (local_skip (ne_nil_of_head? hx)).bind fun _ _ _ _ _ => local_pure trivial
  · exact local_pure trivial
  · exact local_throw

theorem local_line? : Local (fun _ => Loose) (fun _ => EndsLine) line? u := by
  refine local_atEnd.toLine (fun _ _ _ h => h) fun b t rest _ hb => ?_
  obtain ⟨rfl, hb⟩ := hb
  refine .ite (fun hend => local_pure fun h => absurd (hb.mp hend) h) fun _ => ?_
  refine local_line.carry fun l t rest _ hl => local_pure ⟨?_, fun _ h => h⟩
  simpa using hl.1

/-- The shortcuts of an element, if it may have some, and what is read after them. -/
theorem local_shortcutsIf {f : Option Text × List Scalar → Reader Element} (hs : Bool)
    (hf : ∀ r u, Local (fun _ => Loose) (fun _ => EndsLine) (f r) u) :
    Local (fun _ => Loose) (fun _ => EndsLine)
      (if hs = true then do let t ← Reader.allowance; let r ← shortcuts t none []; f r
        else do let r ← pure (none, []); f r) u := by
  refine .ite (fun _ => ?_) fun _ => hf _ u
  rw [← bind_assoc]
  exact local_shortcuts.toLine (fun _ _ _ h => h) fun r _ _ _ _ => hf r _

theorem local_element :
    Local (fun _ => Loose) (fun _ => EndsLine) (element s block) u := by
  refine local_opening.toLine (fun _ _ _ h => h) fun r t rest _ _ => ?_
  obtain ⟨tag, hasShortcuts⟩ := r
  refine local_shortcutsIf hasShortcuts fun r u => ?_
  obtain ⟨id, classes⟩ := r
  dsimp only
  rw [← bind_assoc]
  refine local_dictionaries.toLine (fun _ _ _ h => h) fun attributes _ _ _ _ => ?_
  refine (local_accept _).toLine (fun _ _ _ h => h) fun _ _ _ _ _ => ?_
  refine (local_accept _).toLine (fun _ _ _ h => h) fun _ _ _ _ _ => ?_
  refine (local_accept _).toLine (fun _ _ _ h => h) fun _ _ _ _ _ => ?_
  refine (local_accept _).toLine (fun _ _ _ h => h) fun _ _ _ _ _ => ?_
  refine local_line?.carry fun inline t rest _ hl => ?_
  cases build tag id classes attributes with
  | error e => exact local_throw
  | ok e => exact local_pure ⟨by simpa using hl, fun _ h => h⟩

end Element

namespace Node

open Reader

variable {u : Text} {p : Profile} {block : Text → Except Failure Text}

/-- A filter that is indented by `depth` ends where `rest` is ahead. -/
def Stops (depth : Nat) (rest : Text) : Prop :=
  rest = [] ∨ ∃ m, m ≤ depth ∧ margin? rest = .ok (some m)

/-- Two texts before which the same filters end. -/
def Far (r r' : Text) : Prop := r = r' ∨ r ≠ [] ∧ ∀ depth, Stops depth r → Stops depth r'

theorem Far.loose {r r' : Text} (h : Far r r') : Loose r r' := by
  obtain rfl | ⟨hne, _⟩ := h
  · exact .inr rfl
  · exact .inl hne

theorem far_of_agree {r r' : Text} (h : Agree 0 r r') : Far r r' := by
  by_cases hr : r = []
  · exact .inl (hr.trans (h.nil_iff.mpr hr).symm)
  · refine .inr ⟨hr, fun depth hstop => ?_⟩
    obtain hnil | ⟨m, hm, hmargin⟩ := hstop
    · exact absurd hnil hr
    · exact .inr ⟨m, hm, margin?_agree hmargin h⟩

theorem deeperTurn_stop {depth : Nat} (h : Stops depth u) (q : Text) :
    deeperTurn depth ⟨q, u, 0, 0⟩ = .ok none ⟨q, u, 0, 0⟩ := by
  obtain rfl | ⟨m, hle, hm⟩ := h
  · rfl
  · have hne : u ≠ [] := by
      rintro rfl
      cases hm
    have hend : atEnd ⟨q, u, 0, 0⟩ = .ok false ⟨q, u, 0, 0⟩ := reads_atEnd hne q
    have hmargin : peekMargin ⟨q, u, 0, 0⟩ = .ok (some m) ⟨q, u, 0, 0⟩ := by
      simp [peekMargin, Cursor.ahead, hm]
    rw [deeperTurn, bind_of_ok hend, if_neg (by simp), bind_of_ok hmargin]
    dsimp only
    rw [if_pos hle]
    rfl

/-- Where a filter does not end, its next line is read. -/
theorem deeperTurn_line {depth : Nat} (h : ¬ Stops depth u) {m : Option Nat}
    (hm : margin? u = .ok m) (q : Text) : deeperTurn depth ⟨q, u, 0, 0⟩ =
      (do return some (Attribute.blankToEmpty (← Reader.line)) : Reader (Option Text))
        ⟨q, u, 0, 0⟩ := by
  obtain ⟨hne, hmore⟩ := not_or.mp h
  have hend : atEnd ⟨q, u, 0, 0⟩ = .ok false ⟨q, u, 0, 0⟩ := reads_atEnd hne q
  have hmargin : peekMargin ⟨q, u, 0, 0⟩ = .ok m ⟨q, u, 0, 0⟩ := by
    simp [peekMargin, Cursor.ahead, hm]
  rw [deeperTurn, bind_of_ok hend, if_neg (by simp), bind_of_ok hmargin]
  cases m with
  | none => rfl
  | some k =>
    dsimp only
    rw [if_neg fun hle => hmore ⟨k, hle, hm⟩]

theorem stops_of_agree {depth : Nat} {r r' : Text} (h : Stops depth r) (ha : Agree 0 r r') :
    Stops depth r' := by
  obtain rfl | ⟨m, hle, hm⟩ := h
  · exact .inl (ha.nil_iff.mpr rfl)
  · exact .inr ⟨m, hle, margin?_agree hm ha⟩

/-- A line of a filter is read without a look at what follows it; the end of a filter is seen in the
margin of the line after it. -/
def afterLine (depth : Nat) : Option Text → Text → Text → Prop
  | some _ => Loose
  | none => fun r r' => r = r' ∨ r ≠ [] ∧ Stops depth r'

theorem local_deeperTurn (depth : Nat) :
    Local (afterLine depth) (fun o t rest => match o with
        | some _ => t ≠ [] ∧ EndsLine t rest
        | none => t = [] ∧ Stops depth rest) (deeperTurn depth) u := by
  by_cases hstop : Stops depth u
  · have hread : ∀ {r : Text}, Stops depth r → Reads (deeperTurn depth) [] none r :=
      fun h q => deeperTurn_stop h q
    refine (hread hstop).local ⟨rfl, hstop⟩ fun rest' h => ?_
    obtain rfl | ⟨_, h⟩ := h
    · exact hread hstop
    · exact hread h
  · intro q a c' hr
    cases hm : margin? u with
    | error e =>
      have hne : u ≠ [] := fun h => hstop (.inl h)
      have hend : atEnd ⟨q, u, 0, 0⟩ = .ok false ⟨q, u, 0, 0⟩ := reads_atEnd hne q
      have hmargin : peekMargin ⟨q, u, 0, 0⟩ = .error e ⟨q, u, 0, 0⟩ := by
        simp [peekMargin, Cursor.ahead, hm]
      rw [deeperTurn, bind_of_ok hend, if_neg (by simp)] at hr
      simp [Bind.bind, EStateM.bind, hmargin] at hr
    | ok m =>
      rw [deeperTurn_line hstop hm] at hr
      obtain ⟨t, rest, rfl, rfl, ⟨⟨l, rfl⟩, hends, hne⟩, hreads⟩ :=
        Attribute.local_blankToEmpty q a c' hr
      refine ⟨t, rest, rfl, rfl, ⟨fun ht => hstop (.inl (hne ht)), hends⟩, fun rest' h q' => ?_⟩
      have hagree := hends.agree h
      have hmore : ¬ Stops depth (t ++ rest') := fun h => hstop (stops_of_agree h hagree.symm)
      rw [deeperTurn_line hmore (margin?_agree hm hagree)]
      exact hreads rest' h q'

/-- The body of a filter: its lines, and the margin of what follows them. -/
theorem local_deeperLines (depth : Nat) :
    Local (fun _ => afterLine depth none) (fun _ _ rest => Stops depth rest)
      (do deeperLines depth (← Reader.allowance)) u := by
  simp only [deeperLines_eq]
  let after : List Text ⊕ List Text → Text → Text → Prop := fun r =>
    afterLine depth (r.getLeft?.map fun _ => [])
  refine local_loop (A := after) (fun acc u => ?_) (fun _ _ t rest rest' _ h => ?_)
    (fun _ _ _ _ h => h) []
  · refine (local_deeperTurn depth).carry fun o t rest _ ho => ?_
    cases o with
    | none => exact local_pure ⟨by simpa [Step] using ho.2, fun _ h => h⟩
    | some l => exact local_pure ⟨by simpa [Step] using ho.1, fun _ h => h⟩
  · obtain rfl | ⟨hne, _⟩ := h
    · exact .inr rfl
    · exact .inl (by simp [hne])

theorem local_filterNode (indent : Text) :
    Local (fun _ => Far) (fun _ => EndsLine) (filterNode indent) u := by
  refine local_peek.toLine (fun _ _ _ h => h.loose) fun x t rest _ hx => ?_
  refine .ite (fun _ => local_throw) fun _ => ?_
  refine (local_skip (ne_nil_of_head? hx.2)).toLine (fun _ _ _ h => h.loose) fun _ _ _ _ _ => ?_
  refine Element.local_line?.carry fun name t rest _ hname => ?_
  rw [← bind_assoc]
  refine (local_deeperLines _).carry fun body t' rest' hrest hstop => ?_
  cases name with
  | none => exact local_throw
  | some name =>
    refine local_pure ⟨⟨fun hne => ?_, fun s hs => ?_⟩, fun s hs => ?_⟩
    · exact List.mem_append_left _ (hname (by simp [hrest, hne]))
    · obtain rfl | ⟨hne, _⟩ := hs
      · exact .inr rfl
      · exact .inl (by simp [hne])
    · obtain rfl | ⟨hne, hs⟩ := hs
      · exact .inl rfl
      · exact .inr ⟨hne, hs _ hstop⟩

/-- Whether an element is ahead is seen in the line. -/
theorem startsElement_agree {r r' : Text} (h : Agree 0 r r') (q q' : Text) :
    startsElement ⟨q', r', 0, 0⟩ = startsElement ⟨q, r, 0, 0⟩ := by
  obtain rfl | ⟨w, s, s', rfl, rfl, hw⟩ := h
  · rfl
  · match w with
    | [] => simp at hw
    | [x] =>
      obtain rfl : '\n' = x := by simpa using hw
      simp [startsElement, Cursor.ahead]
    | x :: y :: w => simp [startsElement, Cursor.ahead, Cursor.piece]

theorem local_line_content (indent : Text) :
    Local (fun _ => Loose) (fun _ => EndsLine) (do
      match ofLine p (← Reader.line) with
      | .ok content => return ({ indent := indent, content := content } : Node)
      | .error e => throw e) u := by
  refine local_line.carry fun l t rest _ hl => ?_
  cases ofLine p l with
  | error e => exact local_throw
  | ok content => exact local_pure ⟨by simpa using hl.1, fun _ h => h⟩

/-- A choice that is made by what is seen in the line. -/
theorem local_choice {α : Type} {A : α → Text → Text → Prop} {x y : Reader α}
    (hA : ∀ a r r', A a r r' → Loose r r') (hx : Local A (fun _ => EndsLine) x u)
    (hy : Local A (fun _ => EndsLine) y u) :
    Local A (fun _ => EndsLine) (do if startsElement (← get) then x else y) u := by
  have hget : ∀ q r, (get : Reader Cursor) ⟨q, r, 0, 0⟩ = .ok ⟨q, r, 0, 0⟩ ⟨q, r, 0, 0⟩ :=
    fun _ _ => rfl
  intro q a c' hr
  rw [bind_of_ok (hget q u)] at hr
  by_cases hstarts : startsElement ⟨q, u, 0, 0⟩ = true
  · rw [if_pos hstarts] at hr
    obtain ⟨t, rest, rfl, rfl, hends, hreads⟩ := hx q a c' hr
    refine ⟨t, rest, rfl, rfl, hends, fun rest' h q' => ?_⟩
    have hsame := startsElement_agree (hends.agree (hA _ _ _ h)) q q'
    rw [bind_of_ok (hget _ _), if_pos (hsame.trans hstarts)]
    exact hreads rest' h q'
  · rw [if_neg hstarts] at hr
    obtain ⟨t, rest, rfl, rfl, hends, hreads⟩ := hy q a c' hr
    refine ⟨t, rest, rfl, rfl, hends, fun rest' h q' => ?_⟩
    have hsame := startsElement_agree (hends.agree (hA _ _ _ h)) q q'
    rw [bind_of_ok (hget _ _), if_neg (by rwa [hsame])]
    exact hreads rest' h q'

/-- An element or a line: what follows it does not matter. -/
theorem local_elementOrLine (indent : Text) :
    Local (fun _ => Loose) (fun _ => EndsLine) (do
      if startsElement (← get) then
        return { indent := indent, content := .element (← Element.element p.settings block) }
      else
        match ofLine p (← Reader.line) with
        | .ok content => return ({ indent := indent, content := content } : Node)
        | .error e => throw e) u := by
  refine local_choice (fun _ _ _ h => h) ?_ (local_line_content indent)
  refine Element.local_element.carry fun e t rest _ he => ?_
  exact local_pure ⟨by simpa using he, fun _ h => h⟩

theorem local_node (indent : Text) :
    Local (fun _ => Far) (fun _ => EndsLine) (node p block indent) u := by
  refine local_peek.toLine (fun _ _ _ h => h.loose) fun x t rest _ _ => ?_
  refine .ite (fun _ => local_filterNode indent) fun _ => ?_
  exact (local_elementOrLine indent).narrow fun _ _ _ h => Far.loose h

/-- A node that is no filter does not look at what follows its last line. -/
theorem local_node_of_ne (indent : Text) (hu : u.head? ≠ some ':') :
    Local (fun _ => Loose) (fun _ => EndsLine) (node p block indent) u := by
  refine local_peek.toLine (fun _ _ _ h => h) fun x t rest hrest hx => ?_
  obtain ⟨rfl, hx⟩ := hx
  rw [hrest, List.nil_append] at hu
  refine .ite (fun hfilter => ?_) fun _ => local_elementOrLine indent
  exact absurd (hfilter ▸ hx) hu

theorem local_blankLines :
    Local (Near 0) (fun _ _ _ => True) (do blankLines (← Reader.allowance) 0) u := by
  simp only [blankLines_eq]
  refine local_loop (A := Near 0) (fun n u => ?_) (fun _ _ t _ _ _ h => h.append t)
    (fun _ _ _ _ h => h) 0
  refine local_indentation.bind fun _ t _ _ _ => ?_
  refine (local_accept '\n').bind fun b t' _ _ hb => ?_
  cases b with
  | true => exact local_pure (by simp [Step, hb.1 rfl])
  | false => exact local_pure trivial

/-- The next node and the blank lines before it. -/
theorem local_next :
    Local (fun _ => Far) (fun _ => EndsLine) (next p block) u := by
  unfold next
  rw [← bind_assoc]
  refine local_blankLines.toLine (fun _ _ _ h => h.loose) fun r _ rest _ _ => ?_
  refine local_atEnd.toLine (fun _ _ _ h => h.loose) fun b t rest _ hb => ?_
  refine .ite (fun hend => local_pure fun h => absurd (hb.2.mp hend) h) fun _ => ?_
  refine (local_node _).carry fun n t rest _ hn => local_pure ⟨?_, fun _ h => h⟩
  simpa using hn

end Node

end Haml
