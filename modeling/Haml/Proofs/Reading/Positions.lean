import Haml.Proofs.Compile.Termination

/-!
Positions of the readers. However a reader ends, the text is unchanged, and the new position is in
the text and not before the old one. A node ends at the end of a line. So the nodes of a template
are read from pieces of its text that begin at the start of a line and do not overlap, and the run
over all of them ends at the end of the text.
-/
namespace Haml

namespace Cursor

/-- The position after the first `i` characters of a text. -/
def spot (t : Text) (i : Nat) : Cursor := { passed := (t.take i).reverse, rest := t.drop i }

@[simp] theorem spot_zero (t : Text) : spot t 0 = ofText t := rfl
@[simp] theorem text_spot (t : Text) (i : Nat) : (spot t i).text = t := by simp [spot, text]

theorem within_spot (t : Text) (i : Nat) : (spot t i).Within := ⟨rfl, rfl⟩

theorem position_spot {t : Text} {i : Nat} (h : i ≤ t.length) : (spot t i).position = i := by
  simp [spot, position]
  omega

theorem length_rest_spot (t : Text) (i : Nat) : (spot t i).rest.length = t.length - i := by
  simp [spot]

theorem Within.eq_spot {c : Cursor} (h : c.Within) : c = spot c.text c.passed.length := by
  obtain ⟨p, r, rfl⟩ := exists_eq_of_within h
  simp [spot, text]

theorem Moves.eq_spot {t : Text} {i : Nat} {c : Cursor} (h : (spot t i).Moves c)
    (hi : i ≤ t.length) : ∃ j, i ≤ j ∧ j ≤ t.length ∧ c = spot t j := by
  have htext : c.text = t := h.text_eq.trans (text_spot t i)
  have hlen := h.length_passed
  have hle := h.length_le
  have heq := h.1.eq_spot
  rw [htext] at heq
  refine ⟨c.passed.length, ?_, ?_, heq⟩
  · simp only [spot, List.length_reverse, List.length_take, List.length_drop] at hlen hle
    omega
  · simp only [spot, List.length_reverse, List.length_take, List.length_drop] at hlen
    omega

end Cursor

open Cursor (spot)

def AfterBreak (t : Text) (i : Nat) : Prop := ∃ j, i = j + 1 ∧ t[j]? = some '\n'

def LineStart (t : Text) (i : Nat) : Prop := i = 0 ∨ AfterBreak t i

theorem afterBreak_of_passed {t : Text} {i : Nat} (hi : i ≤ t.length)
    (h : (spot t i).passed.head? = some '\n') : AfterBreak t i := by
  cases i with
  | zero => simp [spot] at h
  | succ j =>
    refine ⟨j, rfl, ?_⟩
    rw [← h]
    simp only [spot, List.head?_reverse, List.getLast?_eq_getElem?, List.length_take]
    rw [show min (j + 1) t.length - 1 = j by omega, List.getElem?_take_of_lt (by omega)]

theorem lineEnd_spot {t : Text} {i : Nat} (hi : i ≤ t.length) (h : (spot t i).LineEnd) :
    i = t.length ∨ AfterBreak t i := by
  rcases h with h | h
  · left
    have := congrArg List.length h
    rw [Cursor.length_rest_spot, List.length_nil] at this
    omega
  · exact Or.inr (afterBreak_of_passed hi h)

namespace Reader

variable {α : Type}

/-- However the reader ends, the text stays what it is, and the position does not go back and does
not leave the text. -/
def Steady (r : Reader α) : Prop :=
  ∀ (t : Text) (i : Nat), i ≤ t.length → ∃ j, i ≤ j ∧ j ≤ t.length ∧
    ((∃ a, r (spot t i) = .ok a (spot t j)) ∨ ∃ e, r (spot t i) = .error e (spot t j))

theorem steady_of_alike {r : Reader α} {Q : Cursor → α → Cursor → Prop}
    (h : ∀ c, c.Within → Alike c (fun _ => True) (Q c) (r c) (r c)) : Steady r := by
  intro t i hi
  obtain ⟨_, hout⟩ := h (spot t i) (Cursor.within_spot t i)
  cases hr : r (spot t i) with
  | ok a c =>
    rw [hr] at hout
    obtain ⟨j, hij, hj, rfl⟩ := hout.1.eq_spot hi
    exact ⟨j, hij, hj, Or.inl ⟨a, rfl⟩⟩
  | error e c =>
    rw [hr] at hout
    obtain ⟨j, hij, hj, rfl⟩ := hout.1.eq_spot hi
    exact ⟨j, hij, hj, Or.inr ⟨e, rfl⟩⟩

end Reader

namespace Node

open Reader

variable {p : Profile} {block : Text → Except Failure Text} {c c' : Cursor}

/-- Passing over blank lines leads to the start of a line. -/
theorem reached_blankTurn {n : Nat} (hc : c.Within) (h : Reached blankTurn 0 c n c') :
    c.Moves c' ∧ (c' = c ∨ c'.passed.head? = some '\n') := by
  induction h with
  | start => exact ⟨.refl hc, Or.inl rfl⟩
  | turn _ hturn ih =>
    obtain ⟨indent, c₁, hindent, hturn⟩ := exists_of_bind_eq_ok hturn
    obtain ⟨b, c₂, haccept, hturn⟩ := exists_of_bind_eq_ok hturn
    have h₁ := ((indentation_alike (E := fun _ => True) ih.1).ok hindent).1
    obtain ⟨h₂, hb⟩ := (accept_alike (E := fun _ => True) '\n' h₁).ok haccept
    rcases hb with ⟨rfl, hr⟩ | ⟨rfl, _, _⟩
    · cases hturn
      have hp := h₁.passed_eq h₂ (w := ['\n']) hr
      exact ⟨h₂, Or.inr (by simp [hp])⟩
    · cases hturn

/-- A node is read in the same way from the start of its own first line, without the blank lines in
front of it. -/
theorem next_from_line {blanks : Nat} {n : Node} (hc : c.Within)
    (h : next p block c = .ok (blanks, some n) c') :
    ∃ c₁, c.Moves c₁ ∧ (c₁ = c ∨ c₁.passed.head? = some '\n') ∧
      next p block c₁ = .ok (0, some n) c' := by
  obtain ⟨steps, c₀, hsteps, h⟩ := exists_of_bind_eq_ok h
  cases hsteps
  obtain ⟨⟨blanks', indent⟩, c₂, hblank, h⟩ := exists_of_bind_eq_ok h
  rw [blankLines_eq] at hblank
  obtain ⟨k, c₁, hreached, hlast⟩ := exists_reached_of_iterate hblank
  obtain ⟨hmoves, hstart⟩ := reached_blankTurn hc hreached
  refine ⟨c₁, hmoves, hstart, ?_⟩
  have hfirst : blankLines (' ' :: c₁.ahead) 0 c₁ = .ok (0, indent) c₂ := by
    obtain ⟨w, c₃, hw, hlast⟩ := exists_of_bind_eq_ok hlast
    obtain ⟨b, c₄, hb, hlast⟩ := exists_of_bind_eq_ok hlast
    cases b with
    | true => cases hlast
    | false =>
      cases hlast
      rw [blankLines, bind_of_ok hw, bind_of_ok hb]
      rfl
  obtain ⟨b, c₃, hend, h⟩ := exists_of_bind_eq_ok h
  cases b with
  | true => cases h
  | false =>
    obtain ⟨m, c₄, hnode, h⟩ := exists_of_bind_eq_ok h
    cases h
    have hallowance : allowance c₁ = .ok (' ' :: c₁.ahead) c₁ := rfl
    rw [next, bind_of_ok hallowance, bind_of_ok hfirst]
    dsimp only
    rw [bind_of_ok hend]
    exact bind_of_ok hnode

/-- The node `n` is read from the line that starts at `i`, and its reading ends at `j`. -/
structure Piece (p : Profile) (block : Text → Except Failure Text) (t : Text) (n : Node)
    (i j : Nat) : Prop where
  start : LineStart t i
  lt : i < j
  le : j ≤ t.length
  finish : j = t.length ∨ AfterBreak t j
  read : ∃ m, next p block (spot t i) = .ok (0, some m) (spot t j) ∧
    m.indent = n.indent ∧ m.content = n.content

/-- The nodes, last first, are read from pieces of the text one after another; the last piece ends
at a given place. -/
inductive Pieces (p : Profile) (block : Text → Except Failure Text) (t : Text) :
    List Node → Nat → Prop
  | nil : Pieces p block t [] 0
  | cons {n : Node} {ns : List Node} {k i j : Nat} (before : Pieces p block t ns k) (apart : k ≤ i)
      (piece : Piece p block t n i j) : Pieces p block t (n :: ns) j

theorem Pieces.addNewlines {t : Text} {ns : List Node} {j : Nat} (blanks : Nat)
    (h : Pieces p block t ns j) : Pieces p block t (addNewlines blanks ns) j := by
  cases h with
  | nil => exact .nil
  | cons before apart piece =>
    exact .cons before apart ⟨piece.start, piece.lt, piece.le, piece.finish, piece.read⟩

theorem Pieces.lineStart {t : Text} {ns : List Node} {j : Nat} (h : Pieces p block t ns j) :
    j ≤ t.length ∧ (j = t.length ∨ LineStart t j) := by
  cases h with
  | nil => exact ⟨Nat.zero_le _, Or.inr (Or.inl rfl)⟩
  | cons _ _ piece =>
    refine ⟨piece.le, ?_⟩
    rcases piece.finish with h | h
    · exact Or.inl h
    · exact Or.inr (Or.inr h)

/-- Where a node is read, a piece of the text belongs to it alone. -/
theorem piece_of_next {t : Text} {j blanks : Nat} {n : Node} (hj : j ≤ t.length)
    (hstart : j = t.length ∨ LineStart t j)
    (h : next p block (spot t j) = .ok (blanks, some n) c') :
    ∃ i k, j ≤ i ∧ c' = spot t k ∧ Piece p block t n i k := by
  obtain ⟨c₁, hmoves, hline, hread⟩ := next_from_line (Cursor.within_spot t j) h
  obtain ⟨i, hji, hi, rfl⟩ := hmoves.eq_spot hj
  obtain ⟨hmoves', hend⟩ := (next_alike (.refl p) (Cursor.within_spot t i) (.self _ block)).ok hread
  obtain ⟨hlt, _, hfinish⟩ := hend.1 n rfl
  obtain ⟨k, hik, hk, rfl⟩ := hmoves'.eq_spot hi
  rw [Cursor.length_rest_spot, Cursor.length_rest_spot] at hlt
  refine ⟨i, k, hji, rfl, ?_, by omega, hk, lineEnd_spot hk hfinish, n, hread, rfl, rfl⟩
  rcases hline with heq | hbreak
  · have hpos := congrArg Cursor.position heq
    rw [Cursor.position_spot hi, Cursor.position_spot hj] at hpos
    rcases hstart with hend | hstart
    · omega
    · rwa [show i = j by omega]
  · exact Or.inr (afterBreak_of_passed hi hbreak)

/-- The nodes that have been read at some time come from pieces of the text one after another. -/
theorem reached_pieces {t : Text} {read : List Node}
    (h : Reached (nodeTurn p block) [] (.ofText t) read c) :
    ∃ j, c = spot t j ∧ Pieces p block t read j := by
  induction h with
  | start => exact ⟨0, rfl, .nil⟩
  | turn _ hturn ih =>
    obtain ⟨j, rfl, hpieces⟩ := ih
    obtain ⟨⟨blanks, found⟩, c₁, hnext, hturn⟩ := exists_of_bind_eq_ok hturn
    cases found with
    | none => cases hturn
    | some n =>
      cases hturn
      obtain ⟨hj, hstart⟩ := hpieces.lineStart
      obtain ⟨i, k, hji, rfl, hpiece⟩ := piece_of_next hj hstart hnext
      exact ⟨k, rfl, .cons (hpieces.addNewlines blanks) hji hpiece⟩

/-- A run over all nodes ends at the end of the text. -/
theorem all_pieces {t steps : Text} {nodes : List Node}
    (h : all p block steps [] (.ofText t) = .ok nodes c) :
    c = spot t t.length ∧ ∃ j, Pieces p block t nodes.reverse j := by
  rw [all_eq] at h
  obtain ⟨read, c₁, hreached, hturn⟩ := exists_reached_of_iterate h
  obtain ⟨j, rfl, hpieces⟩ := reached_pieces hreached
  obtain ⟨⟨blanks, found⟩, c₂, hnext, hturn⟩ := exists_of_bind_eq_ok hturn
  cases found with
  | some n => cases hturn
  | none =>
    cases hturn
    refine ⟨?_, j, ?_⟩
    · have hj := hpieces.lineStart.1
      obtain ⟨hmoves, hend⟩ := (next_alike (.refl p) (Cursor.within_spot t j) (.self _ block)).ok hnext
      obtain ⟨k, _, hk, rfl⟩ := hmoves.eq_spot hj
      have hlen := congrArg List.length (hend.2 rfl)
      rw [Cursor.length_rest_spot, List.length_nil] at hlen
      rw [show k = t.length by omega]
    · rw [List.reverse_reverse]
      exact hpieces.addNewlines blanks

end Node

/-- What all readers of templates do with the text and the position. -/
structure Discipline (p : Profile) (block : Text → Except Failure Text) : Prop where
  indentation : Reader.indentation.Steady
  gap : Reader.gap.Steady
  peekMargin : Reader.peekMargin.Steady
  quotedString : Reader.quotedString.Steady
  line : Reader.line?.Steady
  number : Reader.number.Steady
  symbol : ∀ symbols, (Reader.symbol symbols).Steady
  word : ∀ extra, (Reader.word extra).Steady
  tagName : Element.tagName.Steady
  scalar : (Attribute.scalar p.settings).Steady
  list : (Attribute.list p.settings).Steady
  blockValue : (Attribute.blockValue block).Steady
  bracedEntry : (Attribute.bracedEntry p.settings block).Steady
  parenEntry : (Attribute.parenEntry p.settings block).Steady
  dictionary : (Attribute.dictionary p.settings block).Steady
  element : (Element.element p.settings block).Steady
  filterNode : ∀ indent, (Node.filterNode indent).Steady
  next : (Node.next p block).Steady
  /-- A node that was read has been passed over, up to the end of a line. -/
  nextNode : ∀ t i blanks n c, i ≤ t.length →
    Node.next p block (spot t i) = .ok (blanks, some n) c →
      ∃ j, c = spot t j ∧ i < j ∧ j ≤ t.length ∧ (j = t.length ∨ AfterBreak t j)
  /-- At any time in a run the nodes read so far come from pieces of the text one after another, each
  from the start of a line on. -/
  underway : ∀ t read c, Reader.Reached (Node.nodeTurn p block) [] (.ofText t) read c →
    ∃ j, c = spot t j ∧ Node.Pieces p block t read j
  /-- A run that ends with all nodes of a template ends at the end of its text. -/
  finished : ∀ t nodes c, Node.all p block (' ' :: t) [] (.ofText t) = .ok nodes c →
    c = spot t t.length ∧ ∃ j, Node.Pieces p block t nodes.reverse j

/-- Every reader keeps the text and moves forward within it, whether it ends with a value or with a
failure, and a template is read from pieces of its text that begin at the start of a line. -/
theorem reading_disciplined (p : Profile) (block : Text → Except Failure Text) :
    Discipline p block := by
  have hE : ∀ e : Failure, e ≠ .stalled → (fun _ => True) e := fun _ _ => trivial
  have hB : ∀ c : Cursor, Blocks c.text.length (fun _ => True) block block := fun c => .self _ block
  exact {
    indentation := Reader.steady_of_alike fun _ hc => Reader.indentation_alike (.refl hc)
    gap := Reader.steady_of_alike fun _ hc => Reader.gap_alike (.refl hc)
    peekMargin := Reader.steady_of_alike fun _ hc => Reader.peekMargin_alike hE (.refl hc)
    quotedString := Reader.steady_of_alike fun _ hc => Reader.quotedString_alike hE (.refl hc)
    line := Reader.steady_of_alike fun _ hc => Reader.line?_alike (.refl hc)
    number := Reader.steady_of_alike fun _ hc => Reader.number_alike hE (.refl hc)
    symbol := fun symbols =>
      Reader.steady_of_alike fun _ hc => Reader.symbol_alike hE symbols (.refl hc)
    word := fun extra => Reader.steady_of_alike fun _ hc => Reader.word_alike hE extra (.refl hc)
    tagName := Reader.steady_of_alike fun _ hc => Element.tagName_alike hE (.refl hc)
    scalar := Reader.steady_of_alike fun _ hc => Attribute.scalar_alike hE (.refl hc)
    list := Reader.steady_of_alike fun _ hc => Attribute.list_alike hE (.refl hc)
    blockValue := Reader.steady_of_alike fun c hc =>
      Attribute.blockValue_alike hc (Nat.lt_succ_self _) (.self _ block)
    bracedEntry := Reader.steady_of_alike fun c hc => Attribute.bracedEntry_alike hc (hB c)
    parenEntry := Reader.steady_of_alike fun c hc => Attribute.parenEntry_alike hc (hB c)
    dictionary := Reader.steady_of_alike fun c hc => Attribute.dictionary_alike hc (hB c)
    element := Reader.steady_of_alike fun c hc => Element.element_alike hc (hB c)
    filterNode := fun indent =>
      Reader.steady_of_alike fun _ hc => Node.filterNode_alike (p := p) hE indent hc
    next := Reader.steady_of_alike fun c hc => Node.next_alike (.refl p) hc (hB c)
    nextNode := by
      intro t i blanks n c hi h
      obtain ⟨hmoves, hend⟩ := (Node.next_alike (.refl p) (Cursor.within_spot t i) (hB _)).ok h
      obtain ⟨hlt, _, hfinish⟩ := hend.1 n rfl
      obtain ⟨j, hij, hj, rfl⟩ := hmoves.eq_spot hi
      rw [Cursor.length_rest_spot, Cursor.length_rest_spot] at hlt
      exact ⟨j, rfl, by omega, hj, lineEnd_spot hj hfinish⟩
    underway := fun t read c h => Node.reached_pieces h
    finished := fun t nodes c h => Node.all_pieces h }

/-- A template of two nodes with a blank line between them. -/
theorem reading_disciplined_two :
    ∃ nodes c, Node.all {} (compile {}) " %p\n\n x".toList [] (.ofText "%p\n\n x".toList) =
        .ok nodes c ∧ nodes.length = 2 ∧ c = spot "%p\n\n x".toList 6 ∧
      ∃ j, Node.Pieces {} (compile {}) "%p\n\n x".toList nodes.reverse j :=
  ⟨_, _, rfl, rfl, (reading_disciplined {} (compile {})).finished "%p\n\n x".toList _ _ rfl⟩

end Haml
