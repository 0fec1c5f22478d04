import Haml.Proofs.Reading.Mishaps
import Haml.Proofs.Reading.NodeLocality
import Mathlib.Data.List.TakeWhile

/-!
Blocks of lines. A block value and the body of a filter take the lines ahead that are blank or have
a margin; a filter takes those that a block with a margin of one more takes. What one turn of the
loop does is said once, and from it what the loop takes of a text, and what a text must be for the
loop to take it.
-/
namespace Haml

/-! ## Lines with their line ends -/

namespace Text

def endLines (ls : List Text) : Text := ls.flatMap (· ++ ['\n'])

@[simp] theorem endLines_nil : endLines [] = [] := rfl

@[simp] theorem endLines_cons (l : Text) (ls : List Text) :
    endLines (l :: ls) = l ++ '\n' :: endLines ls := by simp [endLines]

theorem endLines_append (ls ks : List Text) : endLines (ls ++ ks) = endLines ls ++ endLines ks :=
  List.flatMap_append

/-- There are fewer lines than characters that a reader is allowed to look at. -/
theorem length_lt_endLines (ls : List Text) (rest : Text) :
    ls.length < (' ' :: (endLines ls ++ rest)).length := by
  induction ls with
  | nil => simp
  | cons l ls ih =>
    simp only [endLines_cons, List.length_append, List.length_cons] at ih ⊢
    omega

theorem endLines_eq_unlines {ls : List Text} (h : ls ≠ []) :
    endLines ls = unlines ls ++ ['\n'] := by
  induction ls with
  | nil => exact absurd rfl h
  | cons l ls ih =>
    cases ls with
    | nil => simp [unlines]
    | cons k ls =>
      rw [endLines_cons, ih (List.cons_ne_nil k ls), unlines_cons_cons]
      simp

/-- A text with something after the end of some lines. -/
theorem endLines_append_eq_unlines (ls : List Text) (l : Text) :
    endLines ls ++ l = unlines (ls ++ [l]) := by
  have h := endLines_eq_unlines (List.append_ne_nil_of_right_ne_nil ls (List.cons_ne_nil l []))
  rw [endLines_append, endLines_cons, endLines_nil, ← List.append_assoc] at h
  exact List.append_cancel_right h

theorem lines_endLines_append {ls : List Text} (h : ∀ l ∈ ls, '\n' ∉ l) (t : Text) :
    lines (endLines ls ++ t) = ls ++ lines t := by
  induction ls with
  | nil => rfl
  | cons l ls ih =>
    rw [endLines_cons, List.append_assoc, List.cons_append, lines_append_break,
      lines_of_not_mem (h l (by simp)), ih fun k hk => h k (List.mem_cons_of_mem l hk)]
    rfl

/-- The lines of a text as they are read one by one. After a line break at its end there is none. -/
def readLines (t : Text) : List Text :=
  if t.isEmpty || t.getLast? == some '\n' then t.lines.dropLast else t.lines

theorem readLines_endLines_append {ls : List Text} (h : ∀ l ∈ ls, '\n' ∉ l) (t : Text) :
    readLines (endLines ls ++ t) = ls ++ readLines t := by
  have hlines := lines_endLines_append h t
  by_cases ht : t = []
  · subst ht
    cases ls with
    | nil => rfl
    | cons l ls =>
      have hend : (endLines (l :: ls) ++ []).getLast? = some '\n' := by
        rw [List.append_nil, endLines_eq_unlines (List.cons_ne_nil l ls)]
        exact List.getLast?_concat
      rw [readLines, hend, hlines, beq_self_eq_true, Bool.or_true, if_pos rfl]
      exact List.dropLast_concat.trans (List.append_nil _).symm
  · have hlast : (endLines ls ++ t).getLast? = t.getLast? := List.getLast?_append_of_ne_nil _ ht
    have hempty : (endLines ls ++ t).isEmpty = t.isEmpty := by
      rw [List.isEmpty_eq_false_iff.mpr ht, List.isEmpty_eq_false_iff]
      exact List.append_ne_nil_of_right_ne_nil _ ht
    rw [readLines, readLines, hlast, hempty, hlines]
    split
    · exact List.dropLast_append_of_ne_nil (splitWhen_ne_nil _ t)
    · rfl

theorem readLines_of_not_mem {l : Text} (h : '\n' ∉ l) (hne : l ≠ []) : readLines l = [l] := by
  have hlast : l.getLast? ≠ some '\n' := fun hlast => h (List.mem_of_getLast? hlast)
  simp [readLines, hne, hlast, lines_of_not_mem h]

theorem head?_readLines {t : Text} (hne : t ≠ []) : t.readLines.head? = t.lines.head? := by
  by_cases hbreak : '\n' ∈ t
  · obtain ⟨l, rest, rfl, hl⟩ := List.eq_append_cons_of_mem hbreak
    have hread := readLines_endLines_append (List.forall_mem_singleton.mpr hl) rest
    have hlines := lines_endLines_append (List.forall_mem_singleton.mpr hl) rest
    rw [endLines_cons, endLines_nil, List.append_assoc, List.singleton_append] at hread hlines
    rw [hread, hlines]
    rfl
  · rw [readLines_of_not_mem hbreak hne, lines_of_not_mem hbreak]

def indentOf (l : Text) : Nat := (l.takeWhile isBlank).length

end Text

namespace Reader

open Text (indentOf)

variable {l rest : Text}

theorem margin?_of_blank (hl : '\n' ∉ l) (h : ∀ x ∈ l, Text.isBlank x = true) :
    margin? (l ++ '\n' :: rest) = .ok none := by
  induction l with
  | nil => rfl
  | cons x l ih =>
    rw [List.mem_cons, not_or] at hl
    rw [List.cons_append, margin?, if_neg (Ne.symm hl.1), if_pos (h x (by simp)),
      ih hl.2 fun y hy => h y (List.mem_cons_of_mem x hy)]
    rfl

theorem margin?_of_black (hl : '\n' ∉ l) (h : ∃ x ∈ l, Text.isBlank x = false) :
    margin? (l ++ rest) = .ok (some (indentOf l)) := by
  induction l with
  | nil =>
    obtain ⟨x, hx, -⟩ := h
    cases hx
  | cons x l ih =>
    rw [List.mem_cons, not_or] at hl
    rw [List.cons_append, margin?, if_neg (Ne.symm hl.1), indentOf, List.takeWhile_cons]
    by_cases hx : Text.isBlank x = true
    · have hrest : ∃ y ∈ l, Text.isBlank y = false := by
        obtain ⟨y, hy, hblack⟩ := h
        rcases List.mem_cons.mp hy with rfl | hy
        · rw [hx] at hblack
          cases hblack
        · exact ⟨y, hy, hblack⟩
      rw [if_pos hx, if_pos hx, ih hl.2 hrest]
      rfl
    · rw [if_neg hx, if_neg hx]
      rfl

/-- A line of blanks that has no line end has no margin. -/
theorem margin?_of_endless (hl : '\n' ∉ l) (h : ∀ x ∈ l, Text.isBlank x = true) :
    margin? l = .error .pastEnd := by
  induction l with
  | nil => rfl
  | cons x l ih =>
    rw [List.mem_cons, not_or] at hl
    rw [margin?, if_neg (Ne.symm hl.1), if_pos (h x (by simp)),
      ih hl.2 fun y hy => h y (List.mem_cons_of_mem x hy)]
    rfl

theorem reads_peekMargin {m : Option Nat} (h : margin? rest = .ok m) :
    Reads peekMargin [] m rest := by
  intro passed
  simp [peekMargin, Cursor.ahead, h]

end Reader

namespace Attribute

open Reader
open Text (indentOf endLines endLines_cons)

variable {margin : Option Nat} {q l t rest : Text}

/-- The line is part of a block with the given margin: it is blank or has the margin. Without a
margin all lines are blank. -/
def Fits : Option Nat → Text → Prop
  | none, l => ∀ x ∈ l, Text.isBlank x = true
  | some least, l => (∀ x ∈ l, Text.isBlank x = true) ∨ least ≤ indentOf l

/-- A block with the given margin ends before a text. -/
def Ends : Option Nat → Text → Prop
  | none, rest => rest = []
  | some least, rest => rest = [] ∨ ∃ m < least, margin? rest = .ok (some m)

theorem fits_of_blank (margin : Option Nat) (h : ∀ x ∈ l, Text.isBlank x = true) :
    Fits margin l := by
  cases margin with
  | none => exact h
  | some least => exact .inl h

theorem ends_nil (margin : Option Nat) : Ends margin [] := by
  cases margin with
  | none => rfl
  | some least => exact .inl rfl

/-! ## One line -/

theorem reads_blockTurn_end (h : Ends margin rest) : Reads (blockTurn margin) [] none rest := by
  by_cases hnil : rest = []
  · subst hnil
    exact fun _ => rfl
  · cases margin with
    | none => exact absurd h hnil
    | some least =>
      obtain ⟨m, hm, hmargin⟩ := h.resolve_left hnil
      refine (reads_atEnd hnil).look (.ite_neg (by simp) ?_)
      refine (reads_peekMargin hmargin).look ?_
      exact .ite_pos hm (reads_pure _ _)

/-- A line is read as a whole, if it is part of the block and its end can be seen. -/
theorem reads_blockTurn_line {e : Text} (hl : '\n' ∉ l) (hfits : Fits margin l)
    (he : e = ['\n'] ∨ e = [] ∧ rest = [] ∧ ∃ x ∈ l, Text.isBlank x = false) :
    Reads (blockTurn margin) (l ++ e) (some (blankToEmpty l)) rest := by
  have hne : l ++ e ++ rest ≠ [] := by
    rcases he with rfl | ⟨-, -, x, hx, -⟩
    · simp
    · exact fun h => by simp_all
  have hline : Reads (do return some (blankToEmpty (← Reader.line))) (l ++ e)
      (some (blankToEmpty l)) rest := by
    rcases he with rfl | ⟨rfl, rfl, -⟩
    · exact (reads_line hl rest).map _
    · rw [List.append_nil]
      exact (reads_line_end hl).map _
  refine (reads_atEnd hne).look (.ite_neg (by simp) ?_)
  by_cases hblank : ∀ x ∈ l, Text.isBlank x = true
  · have hmargin : margin? (l ++ e ++ rest) = .ok none := by
      rcases he with rfl | ⟨-, -, x, hx, hblack⟩
      · rw [List.append_assoc]
        exact margin?_of_blank hl hblank
      · rw [hblank x hx] at hblack
        cases hblack
    exact (reads_peekMargin hmargin).look hline
  · cases margin with
    | none => exact absurd hfits hblank
    | some least =>
      have hblack : ∃ x ∈ l, Text.isBlank x = false := by simpa using hblank
      have hmargin : margin? (l ++ e ++ rest) = .ok (some (indentOf l)) := by
        rw [List.append_assoc]
        exact margin?_of_black hl hblack
      have hleast := hfits.resolve_left hblank
      refine (reads_peekMargin hmargin).look ?_
      exact .ite_neg (Nat.not_lt.mpr hleast) hline

/-- A turn that does not fail has seen a margin, and one to compare it with if the line ahead is not
blank. -/
theorem margin?_of_blockTurn {o : Option Text} {c : Cursor} (hne : t ≠ [])
    (h : blockTurn margin ⟨q, t, 0, 0⟩ = .ok o c) :
    ∃ m, margin? t = .ok m ∧ (margin = none → m = none) := by
  have hend : atEnd ⟨q, t, 0, 0⟩ = .ok false ⟨q, t, 0, 0⟩ := reads_atEnd hne q
  rw [blockTurn, bind_of_ok hend, if_neg (by simp)] at h
  obtain ⟨m, c₁, hpeek, h⟩ := exists_of_bind_eq_ok h
  obtain ⟨-, -, hm⟩ := (peekMargin_alike anything (.refl ⟨rfl, rfl⟩)).ok hpeek
  refine ⟨m, hm, fun hnone => ?_⟩
  subst hnone
  cases m with
  | none => rfl
  | some k => cases h

/-- What a turn does: the block ends here, or a line of it is read. Only the last line of a text is
without a line break, and then it is not blank. -/
theorem blockTurn_cases {o : Option Text} {c : Cursor}
    (h : blockTurn margin ⟨q, t, 0, 0⟩ = .ok o c) :
    (o = none ∧ Ends margin t ∧ c = ⟨q, t, 0, 0⟩) ∨
    ∃ l e rest, o = some (blankToEmpty l) ∧ '\n' ∉ l ∧ Fits margin l ∧ t = l ++ e ++ rest ∧
      c = ⟨(l ++ e).reverse ++ q, rest, 0, 0⟩ ∧
      (e = ['\n'] ∨ e = [] ∧ rest = [] ∧ ∃ x ∈ l, Text.isBlank x = false) := by
  by_cases hnil : t = []
  · subst hnil
    cases h
    exact .inl ⟨rfl, ends_nil margin, rfl⟩
  obtain ⟨m, hm, hnone⟩ := margin?_of_blockTurn hnil h
  obtain ⟨l, e, rest, rfl, hl, he⟩ : ∃ l e rest, t = l ++ e ++ rest ∧ '\n' ∉ l ∧
      (e = ['\n'] ∨ e = [] ∧ rest = []) := by
    by_cases hbreak : '\n' ∈ t
    · obtain ⟨l, rest, ht, hl⟩ := List.eq_append_cons_of_mem hbreak
      exact ⟨l, ['\n'], rest, by simp [ht], hl, .inl rfl⟩
    · exact ⟨t, [], [], by simp, hbreak, .inr ⟨rfl, rfl⟩⟩
  have hline : Fits margin l →
      (e = ['\n'] ∨ e = [] ∧ rest = [] ∧ ∃ x ∈ l, Text.isBlank x = false) →
      o = some (blankToEmpty l) ∧ c = ⟨(l ++ e).reverse ++ q, rest, 0, 0⟩ := by
    intro hfits hlast
    have hread := reads_blockTurn_line hl hfits hlast q
    rw [h] at hread
    cases hread
    exact ⟨rfl, rfl⟩
  by_cases hblank : ∀ x ∈ l, Text.isBlank x = true
  · have hbreak : e = ['\n'] := by
      refine he.resolve_right ?_
      rintro ⟨rfl, rfl⟩
      rw [List.append_nil, List.append_nil, margin?_of_endless hl hblank] at hm
      cases hm
    obtain ⟨ho, hc⟩ := hline (fits_of_blank margin hblank) (.inl hbreak)
    exact .inr ⟨l, e, rest, ho, hl, fits_of_blank margin hblank, rfl, hc, .inl hbreak⟩
  · have hblack : ∃ x ∈ l, Text.isBlank x = false := by simpa using hblank
    have hmargin : margin? (l ++ e ++ rest) = .ok (some (indentOf l)) := by
      rw [List.append_assoc]
      exact margin?_of_black hl hblack
    cases margin with
    | none =>
      rw [hmargin, hnone rfl] at hm
      cases hm
    | some least =>
      by_cases hlt : indentOf l < least
      · have hends : Ends (some least) (l ++ e ++ rest) := .inr ⟨_, hlt, hmargin⟩
        have hread := reads_blockTurn_end hends q
        rw [List.nil_append, h] at hread
        cases hread
        exact .inl ⟨rfl, hends, rfl⟩
      · have hfits : Fits (some least) l := .inr (Nat.not_lt.mp hlt)
        have hlast : e = ['\n'] ∨ e = [] ∧ rest = [] ∧ ∃ x ∈ l, Text.isBlank x = false :=
          he.imp_right fun he => ⟨he.1, he.2, hblack⟩
        obtain ⟨ho, hc⟩ := hline hfits hlast
        exact .inr ⟨l, e, rest, ho, hl, hfits, rfl, hc, hlast⟩

/-! ## All lines -/

/-- Lines with line ends are read as a block, if they fit and the block ends after them. -/
theorem reads_blockLines {ls : List Text} {steps : Text}
    (hls : ∀ l ∈ ls, '\n' ∉ l ∧ Fits margin l) (hend : Ends margin rest)
    (hsteps : ls.length < steps.length) :
    Reads (blockLines margin steps) (endLines ls) (ls.map blankToEmpty) rest := by
  induction ls generalizing steps with
  | nil =>
    cases steps with
    | nil => cases hsteps
    | cons x steps =>
      rw [blockLines_cons]
      exact (reads_blockTurn_end hend).look (reads_pure _ _)
  | cons l ls ih =>
    cases steps with
    | nil => cases hsteps
    | cons x steps =>
      obtain ⟨hl, hfits⟩ := hls l (by simp)
      have hrest := ih (fun k hk => hls k (List.mem_cons_of_mem l hk))
        (Nat.lt_of_succ_lt_succ hsteps)
      rw [blockLines_cons, endLines_cons, ← List.singleton_append, ← List.append_assoc]
      exact (reads_blockTurn_line hl hfits (.inl rfl)).bind (hrest.map _)

/-- The lines that were read as a block. Each has a line end and the block ends after them, or the
text ends with the last one, which is not blank. -/
theorem blockLines_cases {steps : Text} {found : List Text} {c : Cursor}
    (h : blockLines margin steps ⟨q, t, 0, 0⟩ = .ok found c) :
    ∃ rows, found = rows.map blankToEmpty ∧ (∀ l ∈ rows, '\n' ∉ l ∧ Fits margin l) ∧
      ((∃ rest, t = endLines rows ++ rest ∧ Ends margin rest ∧
          c = ⟨(endLines rows).reverse ++ q, rest, 0, 0⟩) ∨
        (t = Text.unlines rows ∧ c = ⟨t.reverse ++ q, [], 0, 0⟩ ∧
          ∃ last ∈ rows.getLast?, ∃ x ∈ last, Text.isBlank x = false)) := by
  induction steps generalizing q t found with
  | nil => cases h
  | cons x steps ih =>
    rw [blockLines_cons] at h
    obtain ⟨o, c₁, hturn, h⟩ := exists_of_bind_eq_ok h
    rcases blockTurn_cases hturn with ⟨rfl, hends, rfl⟩ | ⟨l, e, rest, rfl, hl, hfits, rfl, rfl, he⟩
    · cases h
      exact ⟨[], rfl, by simp, .inl ⟨t, rfl, hends, rfl⟩⟩
    · obtain ⟨found, c₂, hfound, h⟩ := exists_of_bind_eq_ok h
      cases h
      obtain ⟨rows, rfl, hrows, hcases⟩ := ih hfound
      refine ⟨l :: rows, rfl, List.forall_mem_cons.mpr ⟨⟨hl, hfits⟩, hrows⟩, ?_⟩
      rcases he with rfl | ⟨rfl, rfl, hblack⟩
      · rcases hcases with ⟨rest, rfl, hends, rfl⟩ | ⟨rfl, rfl, last, hlast, hblack⟩
        · exact .inl ⟨rest, by simp, hends, by simp⟩
        · have hne : rows ≠ [] := by
            rintro rfl
            cases hlast
          obtain ⟨k, ks, rfl⟩ := List.exists_cons_of_ne_nil hne
          refine .inr ⟨?_, by simp, last, by rwa [List.getLast?_cons_cons], hblack⟩
          simp [Text.unlines_cons_cons]
      · -- nothing is left after a line without a line end
        rcases hcases with ⟨rest, hnil, -, rfl⟩ | ⟨hnil, -, last, hlast, y, hy, -⟩
        · obtain ⟨hnone, rfl⟩ := List.append_eq_nil_iff.mp hnil.symm
          obtain rfl : rows = [] :=
            List.eq_nil_iff_forall_not_mem.mpr (by simpa [endLines] using hnone)
          exact .inr ⟨by simp [Text.unlines], by simp, l, rfl, hblack⟩
        · have hmem := (Text.within_unlines (List.mem_of_getLast? hlast)).subset hy
          rw [← hnil] at hmem
          cases hmem

/-! ## Block values -/

/-- A block does not end at the line that its margin was taken from. -/
theorem not_ends_of_margin? (h : margin? t = .ok margin) : ¬ Ends margin t := by
  cases margin with
  | none =>
    rintro rfl
    cases h
  | some least =>
    rintro (rfl | ⟨m, hlt, hm⟩)
    · cases h
    · rw [h] at hm
      cases hm
      exact Nat.lt_irrefl _ hlt

/-- A block value is made of the lines that were read. -/
theorem blockValue_eq {block : Text → Except Failure Text} {found : List Text} {html : Text}
    {c : Cursor} (hmargin : margin? t = .ok margin)
    (hfound : blockLines margin (' ' :: t) ⟨q, t, 0, 0⟩ = .ok found c)
    (hblock : block (Text.unlines found) = .ok html) :
    blockValue block ⟨q, t, 0, 0⟩ = .ok (flatten html) c.back := by
  have hpeek : peekMargin ⟨q, t, 0, 0⟩ = .ok margin ⟨q, t, 0, 0⟩ := reads_peekMargin hmargin q
  have hallowance : allowance ⟨q, t, 0, 0⟩ = .ok (' ' :: t) ⟨q, t, 0, 0⟩ := rfl
  have hback : unread c = .ok () c.back := rfl
  rw [blockValue, bind_of_ok hpeek, bind_of_ok hallowance, bind_of_ok hfound, bind_of_ok hback,
    hblock]
  rfl

/-- Lines that fit are read as a block value up to the line end of the last one. -/
theorem reads_blockValue {block : Text → Except Failure Text} {rows : List Text} {html : Text}
    (hne : rows ≠ []) (hrows : ∀ l ∈ rows, '\n' ∉ l ∧ Fits margin l)
    (hmargin : margin? (endLines rows ++ rest) = .ok margin) (hends : Ends margin rest)
    (hblock : block (Text.unlines (rows.map blankToEmpty)) = .ok html) :
    Reads (blockValue block) (Text.unlines rows) (flatten html) ('\n' :: rest) := by
  intro passed
  have htext : Text.unlines rows ++ '\n' :: rest = endLines rows ++ rest := by
    rw [Text.endLines_eq_unlines hne]
    simp
  have hfound := reads_blockLines hrows hends (Text.length_lt_endLines rows rest) passed
  rw [htext, blockValue_eq hmargin hfound hblock, Text.endLines_eq_unlines hne]
  simp [Cursor.back]

/-- What a block value is made of: the lines that were read, compiled and brought onto one line. The
position goes back by one character from where they end. -/
theorem blockValue_cases {block : Text → Except Failure Text} {v : Text} {c : Cursor}
    (h : blockValue block ⟨q, t, 0, 0⟩ = .ok v c) :
    ∃ margin found c₁ html, margin? t = .ok margin ∧
      blockLines margin (' ' :: t) ⟨q, t, 0, 0⟩ = .ok found c₁ ∧
      block (Text.unlines found) = .ok html ∧ v = flatten html ∧ c = c₁.back := by
  obtain ⟨margin, c₁, hpeek, h⟩ := exists_of_bind_eq_ok h
  obtain ⟨-, rfl, hmargin⟩ := (peekMargin_alike anything (.refl ⟨rfl, rfl⟩)).ok hpeek
  obtain ⟨steps, c₂, hsteps, h⟩ := exists_of_bind_eq_ok h
  cases hsteps
  obtain ⟨found, c₃, hfound, h⟩ := exists_of_bind_eq_ok h
  obtain ⟨_, c₄, hback, h⟩ := exists_of_bind_eq_ok h
  cases hback
  cases hblock : block (Text.unlines found) with
  | error e =>
    rw [hblock] at h
    cases h
  | ok html =>
    rw [hblock] at h
    cases h
    exact ⟨margin, found, c₃, html, hmargin, hfound, hblock, rfl, rfl⟩

def inBlock (least : Nat) (l : Text) : Bool := l.all Text.isBlank || decide (least ≤ indentOf l)

def blockRows (t : Text) : List Text :=
  t.readLines.takeWhile (inBlock (indentOf (t.lines.headD [])))

/-- All lines of a text belong to a block, and the last one has no line end. -/
def RunsOut (t : Text) : Prop :=
  t.getLast? ≠ some '\n' ∧ ∀ l ∈ t.lines, inBlock (indentOf (t.lines.headD [])) l = true

theorem inBlock_of_fits (hmargin : margin? t = .ok margin) (h : Fits margin l) :
    inBlock (indentOf (t.lines.headD [])) l = true := by
  obtain ⟨first, ls, hlines, hfirst⟩ := margin?_line hmargin
  rw [hlines, List.headD_cons, inBlock, Bool.or_eq_true, List.all_eq_true, decide_eq_true_eq]
  cases margin with
  | none => exact .inl h
  | some least =>
    refine h.imp_right fun hle => ?_
    rw [indentOf, hfirst.1]
    exact hle

/-- The first line after a block does not belong to it. -/
theorem exists_line_of_ends (hmargin : margin? t = .ok margin) (h : Ends margin rest)
    (hne : rest ≠ []) :
    ∃ l, rest.lines.head? = some l ∧ rest.readLines.head? = some l ∧
      inBlock (indentOf (t.lines.headD [])) l = false := by
  cases margin with
  | none => exact absurd h hne
  | some least =>
    obtain ⟨m, hlt, hm⟩ := h.resolve_left hne
    obtain ⟨first, ls, hlines, hfirst⟩ := margin?_line hmargin
    obtain ⟨l, ls', hrest, hl⟩ := margin?_line hm
    have hhead : rest.lines.head? = some l := by rw [hrest]; rfl
    refine ⟨l, hhead, (Text.head?_readLines hne).trans hhead, ?_⟩
    have hblack : l.all Text.isBlank = false := by
      obtain ⟨x, hx, hblack⟩ := hl.2
      exact List.all_eq_false.mpr ⟨x, hx, by simp [hblack]⟩
    rw [hlines, List.headD_cons, inBlock, hblack, Bool.false_or, decide_eq_false_iff_not,
      indentOf, indentOf, hfirst.1, hl.1]
    exact Nat.not_le.mpr hlt

/-- The lines of a block that ends are those with line ends before the place where it ends. -/
theorem blockRows_eq_of_ends {rows : List Text} (hmargin : margin? t = .ok margin)
    (hrows : ∀ l ∈ rows, '\n' ∉ l ∧ Fits margin l) (ht : t = endLines rows ++ rest)
    (hends : Ends margin rest) : blockRows t = rows ∧ ¬ RunsOut t := by
  have hall : ∀ l ∈ rows, inBlock (indentOf (t.lines.headD [])) l = true :=
    fun l hl => inBlock_of_fits hmargin (hrows l hl).2
  have hread : t.readLines = rows ++ rest.readLines := by
    rw [ht, Text.readLines_endLines_append fun l hl => (hrows l hl).1]
  have hlines : t.lines = rows ++ rest.lines := by
    rw [ht, Text.lines_endLines_append fun l hl => (hrows l hl).1]
  rw [blockRows, hread, List.takeWhile_append_of_pos hall, List.append_right_eq_self]
  by_cases hne : rest = []
  · subst hne
    refine ⟨rfl, fun h => h.1 ?_⟩
    have hsome : rows ≠ [] := by
      rintro rfl
      subst ht
      cases hmargin
    rw [ht, List.append_nil, Text.endLines_eq_unlines hsome]
    exact List.getLast?_concat
  · obtain ⟨l, hhead, hfirst, hout⟩ := exists_line_of_ends hmargin hends hne
    constructor
    · obtain ⟨ls, hls⟩ := List.head?_eq_some_iff.mp hfirst
      rw [hls, List.takeWhile_cons, hout]
      rfl
    · intro h
      have hin := h.2 l (by rw [hlines]; exact List.mem_append_right _ (List.mem_of_head? hhead))
      rw [hout] at hin
      cases hin

/-- The lines of a block that does not end are all lines of the text. -/
theorem blockRows_eq_of_last {rows : List Text} {last : Text} (hmargin : margin? t = .ok margin)
    (hrows : ∀ l ∈ rows, '\n' ∉ l ∧ Fits margin l) (ht : t = Text.unlines rows)
    (hlast : last ∈ rows.getLast?) (hblack : ∃ x ∈ last, Text.isBlank x = false) :
    blockRows t = rows ∧ RunsOut t := by
  have hall : ∀ l ∈ rows, inBlock (indentOf (t.lines.headD [])) l = true :=
    fun l hl => inBlock_of_fits hmargin (hrows l hl).2
  have hne : rows ≠ [] := by
    rintro rfl
    cases hlast
  have hlines : t.lines = rows := by rw [ht, Text.lines_unlines hne fun l hl => (hrows l hl).1]
  have hend : t.getLast? ≠ some '\n' := by
    obtain ⟨front, rfl⟩ := List.getLast?_eq_some_iff.mp hlast
    obtain ⟨x, hx, -⟩ := hblack
    rw [ht, ← Text.endLines_append_eq_unlines,
      List.getLast?_append_of_ne_nil _ (List.ne_nil_of_mem hx)]
    exact fun hbreak => (hrows last (by simp)).1 (List.mem_of_getLast? hbreak)
  have hread : t.readLines = rows := by
    have hsome : t ≠ [] := by
      rintro rfl
      cases hmargin
    rw [Text.readLines, hlines]
    simp [hsome, hend]
  refine ⟨?_, hend, fun l hl => hall l ?_⟩
  · rw [blockRows, hread, List.takeWhile_eq_self_iff]
    exact hall
  · rwa [hlines] at hl

/-- The position is at the line end of the last line of a block, which starts the text `t`. -/
def AtBreak (q t : Text) (c : Cursor) : Prop :=
  ∃ rest, t = Text.unlines (blockRows t) ++ '\n' :: rest ∧
    c = ⟨(Text.unlines (blockRows t)).reverse ++ q, '\n' :: rest, 0, 0⟩

/-- After a block value the position is at the line end of the last line that was compiled, unless
the text ends with the block and has no line break there: then the last character of the text has
been compiled and is read again. -/
theorem blockValue_separated_iff {block : Text → Except Failure Text} {v : Text} {c : Cursor}
    (h : blockValue block ⟨q, t, 0, 0⟩ = .ok v c) :
    (∃ html, block (Text.unlines ((blockRows t).map blankToEmpty)) = .ok html ∧
      v = flatten html) ∧
    (AtBreak q t c ↔ ¬ RunsOut t) ∧
    (RunsOut t → t = Text.unlines (blockRows t) ∧
      ∃ u x, t = u ++ [x] ∧ c = ⟨u.reverse ++ q, [x], 0, 0⟩) := by
  obtain ⟨margin, found, c₁, html, hmargin, hfound, hblock, rfl, rfl⟩ := blockValue_cases h
  obtain ⟨rows, rfl, hrows, hcases⟩ := blockLines_cases hfound
  rcases hcases with ⟨rest, ht, hends, rfl⟩ | ⟨ht, rfl, last, hlast, hblack⟩
  · obtain ⟨hblockRows, hruns⟩ := blockRows_eq_of_ends hmargin hrows ht hends
    have hne : rows ≠ [] := by
      rintro rfl
      rw [Text.endLines_nil, List.nil_append] at ht
      exact not_ends_of_margin? hmargin (ht ▸ hends)
    rw [AtBreak, hblockRows]
    refine ⟨⟨html, hblock, rfl⟩, ⟨fun _ => hruns, fun _ => ⟨rest, ?_, ?_⟩⟩, fun h => absurd h hruns⟩
    · rw [ht, Text.endLines_eq_unlines hne]
      simp
    · rw [Text.endLines_eq_unlines hne]
      simp [Cursor.back]
  · obtain ⟨hblockRows, hruns⟩ := blockRows_eq_of_last hmargin hrows ht hlast hblack
    rw [AtBreak, hblockRows]
    refine ⟨⟨html, hblock, rfl⟩, ⟨?_, fun h => absurd hruns h⟩, fun _ => ⟨ht, ?_⟩⟩
    · rintro ⟨rest, hrest, -⟩
      exfalso
      simpa using ht.symm.trans hrest
    · obtain ⟨u, x, rfl⟩ := List.eq_nil_or_concat' t |>.resolve_left (by rintro rfl; cases hmargin)
      exact ⟨u, x, rfl, by simp [Cursor.back]⟩

theorem blockValue_separated_iff_closed :
    blockValue (compile {}) ⟨[], "  a\n \n   b\n c".toList, 0, 0⟩ =
      .ok "a b".toList ⟨"  a\n \n   b".toList.reverse, "\n c".toList, 0, 0⟩ ∧
    AtBreak [] "  a\n \n   b\n c".toList
      ⟨"  a\n \n   b".toList.reverse, "\n c".toList, 0, 0⟩ := by
  have hblock : compile {} "  a\n\n   b".toList = .ok "  a\n\n   b\n".toList := by decide +kernel
  have hvalue : blockValue (compile {}) ⟨[], "  a\n \n   b\n c".toList, 0, 0⟩ =
      .ok "a b".toList ⟨"  a\n \n   b".toList.reverse, "\n c".toList, 0, 0⟩ := by
    have hlines : blockLines (some 2) "   a\n \n   b\n c".toList
        ⟨[], "  a\n \n   b\n c".toList, 0, 0⟩ =
        .ok (["  a", "", "   b"].map String.toList)
          ⟨"  a\n \n   b\n".toList.reverse, " c".toList, 0, 0⟩ := rfl
    have hflat : flatten "  a\n\n   b\n".toList = "a b".toList := by decide
    exact hflat ▸ blockValue_eq rfl hlines hblock
  have hruns : ¬ RunsOut "  a\n \n   b\n c".toList := by
    intro h
    exact absurd (h.2 " c".toList (by decide)) (by decide)
  exact ⟨hvalue, (blockValue_separated_iff hvalue).2.1.mpr hruns⟩

/-- The brace at the end of a text is compiled as part of the block, and then it closes the
dictionary. -/
theorem block_brace_read_twice :
    blockValue (compile {}) ⟨[], "  x\x7d".toList, 0, 0⟩ =
      .ok "x\x7d".toList ⟨"x  ".toList, ['}'], 0, 0⟩ ∧
    compile {} "%a\x7bb:\n  x\x7d".toList = .ok "<a b='x\x7d'></a>\n".toList := by
  have hblock : compile {} "  x\x7d".toList = .ok "  x\x7d\n".toList := by decide +kernel
  have hlines : blockLines (some 2) "   x\x7d".toList ⟨[], "  x\x7d".toList, 0, 0⟩ =
      .ok ["  x\x7d".toList] ⟨"  x\x7d".toList.reverse, [], 0, 0⟩ := rfl
  have hflat : flatten "  x\x7d\n".toList = "x\x7d".toList := by decide
  exact ⟨hflat ▸ blockValue_eq rfl hlines hblock, by decide +kernel⟩

end Attribute

end Haml
