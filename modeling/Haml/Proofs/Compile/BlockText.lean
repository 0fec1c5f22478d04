import Haml.Proofs.Compile.PlainText
import Haml.Proofs.Reading.Blocks

/-!
Plain text as the value of an attribute. A block of lines is compiled as a template of its own,
where plain text is echoed, and the echo is brought onto one line. What is left of each line is its
content, and there is one space between the contents of two lines, however the lines are indented
and however many blank lines stand between them.
-/
namespace Haml

namespace Text

def contentOf (l : Text) : Text := trimRight (l.dropWhile isIndent)

def contents (ls : List Text) : List Text := (ls.filter fun l => !l.all isBlank).map contentOf

theorem contents_cons_blank {l : Text} (h : l.all isBlank = true) (ls : List Text) :
    contents (l :: ls) = contents ls := by
  simp [contents, h]

theorem contents_cons_black {l : Text} (h : l.all isBlank = false) (ls : List Text) :
    contents (l :: ls) = contentOf l :: contents ls := by
  simp [contents, h]

theorem isWhite_of_isIndent {x : Char} (h : isIndent x = true) : isWhite x = true := by
  simp only [isIndent, Bool.or_eq_true, beq_iff_eq] at h
  rcases h with rfl | rfl <;> decide

theorem isWhite_eq_false {x : Char} (h : isBlank x = false) : isWhite x = false := by
  rw [isBlank, Bool.or_eq_false_iff] at h
  exact h.1

/-! ## Words with spaces between them -/

def Trimmed (t : Text) : Prop := t ≠ [] ∧ trim t = t

theorem Trimmed.exists_cons {t : Text} (h : Trimmed t) :
    ∃ x u, t = x :: u ∧ isBlank x = false ∧ trimRight t = t := by
  obtain ⟨x, u, rfl⟩ := List.exists_cons_of_ne_nil h.1
  have hx := isBlank_of_trim h.2
  refine ⟨x, u, rfl, hx, ?_⟩
  have htrim := h.2
  rwa [trim, trimLeft_cons hx] at htrim

theorem append_flatMap_space (w : Text) (ws : List Text) :
    w ++ ws.flatMap (' ' :: ·) = [' '].intercalate (w :: ws) := by
  induction ws generalizing w with
  | nil => simp
  | cons v ws ih => simp [List.intercalate_cons_cons, ← ih v]

theorem trimRight_intercalate {w : Text} {ws : List Text} (h : ∀ v ∈ w :: ws, Trimmed v) :
    trimRight ([' '].intercalate (w :: ws)) = [' '].intercalate (w :: ws) := by
  induction ws generalizing w with
  | nil =>
    obtain ⟨-, -, -, -, htrim⟩ := (h w (by simp)).exists_cons
    rw [List.intercalate_singleton, htrim]
  | cons v ws ih =>
    have hv := ih fun u hu => h u (List.mem_cons_of_mem w hu)
    have hne : trimRight ([' '].intercalate (v :: ws)) ≠ [] := by
      rw [hv, ← append_flatMap_space]
      exact List.append_ne_nil_of_left_ne_nil (h v (by simp)).1 _
    rw [List.intercalate_cons_cons, trimRight_append_of_ne_nil _ hne, hv]

theorem trim_flatMap_space {ws : List Text} (h : ∀ w ∈ ws, Trimmed w) :
    trim (ws.flatMap (' ' :: ·)) = [' '].intercalate ws := by
  cases ws with
  | nil => rfl
  | cons w ws =>
    obtain ⟨x, u, rfl, hx, -⟩ := (h w (by simp)).exists_cons
    have hlead : ((x :: u) :: ws).flatMap (' ' :: ·) =
        [' '] ++ [' '].intercalate ((x :: u) :: ws) := by
      rw [← append_flatMap_space]
      rfl
    have htail : [' '].intercalate ((x :: u) :: ws) = x :: (u ++ ws.flatMap (' ' :: ·)) := by
      rw [← append_flatMap_space]
      rfl
    rw [hlead, trim_blank_append (List.forall_mem_singleton.mpr rfl), trim, htail,
      trimLeft_cons hx, ← htail, trimRight_intercalate h]

end Text

/-! ## The compiled block -/

/-- Lines of plain text are compiled to what is kept of them. -/
theorem compile_plain_lines {p : Profile} {ls : List Text} (hp : p.settings.outline = false)
    (hne : ls ≠ []) (hls : ∀ l ∈ ls, Node.IsPlainLine p l) :
    compile p (Text.unlines ls) =
      .ok (Text.echoLines (ls.dropWhile (·.all Text.isIndent))) := by
  obtain ⟨nodes, c, hall, hnodes, htext⟩ :=
    Node.all_plain hne hls (' ' :: Text.unlines ls) (Nat.lt_succ_self _) [] (by simp) []
  have hparse : parse p (Text.unlines ls) = .ok (Forest.ofNodes p.tags nodes) := by
    rw [parse, readNodes, Cursor.ofText, hall]
    rfl
  rw [compile_eq, hparse]
  show finish p (Forest.ofNodes p.tags nodes) = _
  rw [finish_eq_render hp, Forest.render_plain (by rwa [Forest.toList_ofNodes]),
    Forest.toList_ofNodes, htext]
  rfl

namespace Attribute

open Text

variable {p : Profile} {l t u w : Text} {ls : List Text}

/-- What is promised of a line of a block that is not blank: it has no inline variables, and what
stands behind its indentation is no mark, no escape and no blank of another kind. -/
structure IsTextLine (p : Profile) (l : Text) : Prop where
  unbroken : '\n' ∉ l
  unmarked : InlineVariable.Unmarked p.inlineEquals l
  starts : ∃ x u, l.dropWhile isIndent = x :: u ∧ isBlank x = false ∧
    x ∉ "%#.:/!=-\\".toList

namespace IsTextLine

theorem isPlainLine (h : IsTextLine p l) : Node.IsPlainLine p l := by
  refine ⟨h.unbroken, ?_, h.unmarked⟩
  obtain ⟨x, u, hdrop, -, hx⟩ := h.starts
  intro y hy hmark
  rw [hdrop] at hy
  cases hy
  exact hx (by simp only [String.reduceToList, List.mem_cons] at hmark ⊢; tauto)

theorem exists_black (h : IsTextLine p l) : ∃ x ∈ l, isBlank x = false := by
  obtain ⟨x, u, hdrop, hx, -⟩ := h.starts
  exact ⟨x, (List.dropWhile_suffix _).subset (hdrop ▸ List.mem_cons_self ..), hx⟩

theorem all_isBlank (h : IsTextLine p l) : l.all isBlank = false := by
  obtain ⟨x, hx, hblack⟩ := h.exists_black
  exact List.all_eq_false.mpr ⟨x, hx, by simp [hblack]⟩

theorem all_isIndent (h : IsTextLine p l) : l.all isIndent = false := by
  obtain ⟨x, hx, hblack⟩ := h.exists_black
  refine List.all_eq_false.mpr ⟨x, hx, fun hindent => ?_⟩
  rw [isBlank_of_isIndent hindent] at hblack
  cases hblack

/-- The indentation of a line of text is all that stands before it. -/
theorem indentOf_eq (h : IsTextLine p l) : indentOf l = (l.takeWhile isIndent).length := by
  obtain ⟨x, u, hdrop, hx, -⟩ := h.starts
  have hcut : l.takeWhile isIndent ++ x :: u = l := by
    rw [← hdrop, List.takeWhile_append_dropWhile]
  have hindent : ∀ y ∈ l.takeWhile isIndent, isBlank y = true := fun y hy =>
    isBlank_of_isIndent (List.all_eq_true.mp List.all_takeWhile y hy)
  conv_lhs => rw [indentOf, ← hcut, List.takeWhile_append_of_pos hindent, List.takeWhile_cons, hx]
  simp

theorem exists_contentOf (h : IsTextLine p l) :
    ∃ x u, contentOf l = x :: u ∧ isBlank x = false ∧ x ≠ '\\' ∧ '\n' ∉ x :: u ∧
      Trimmed (contentOf l) := by
  obtain ⟨x, u, hdrop, hx, hmark⟩ := h.starts
  have hcontent : contentOf l = x :: trimRight u := by
    rw [contentOf, hdrop]
    exact trimRight_append (u := []) hx u
  have hbreak : '\n' ∉ contentOf l := fun hmem =>
    h.unbroken ((List.dropWhile_suffix _).subset ((trimRight_initial _).subset hmem))
  refine ⟨x, trimRight u, hcontent, hx, ?_, hcontent ▸ hbreak, ?_⟩
  · rintro rfl
    exact hmark (by decide)
  · refine ⟨by simp [hcontent], ?_⟩
    rw [hcontent, trim_cons hx]
    exact congrArg _ (trimRight_append_trimRight [] u)

end IsTextLine

/-- What the compiler keeps of a line of a block. -/
def kept (l : Text) : Text := echoLine (blankToEmpty l)

theorem kept_blank (h : l.all isBlank = true) : kept l = [] := by
  rw [kept, blankToEmpty, if_pos h]
  rfl

theorem IsTextLine.kept_eq (h : IsTextLine p l) :
    kept l = Node.uniform (l.takeWhile isIndent) ++ contentOf l := by
  obtain ⟨x, u, hcontent, -, hx, -, -⟩ := h.exists_contentOf
  have hescape : unescaped (contentOf l) = contentOf l := by
    rw [hcontent]
    unfold unescaped
    split
    · next heq => exact absurd (List.cons.inj heq).1 hx
    · rfl
  rw [kept, blankToEmpty, if_neg (by simp [h.all_isBlank]), Node.echoLine_eq h.all_isIndent]
  exact congrArg _ hescape

/-! ## On one line -/

/-- White space at the end of a text stays white space. -/
theorem collapseFrom_append_break (place : Place) (t : Text) :
    ∃ b, (∀ x ∈ b, isBlank x = true) ∧
      collapseFrom place (t ++ ['\n']) = collapseFrom place t ++ b := by
  induction t generalizing place with
  | nil => cases place <;> exact ⟨_, List.all_eq_true.mp (by decide), rfl⟩
  | cons x t ih =>
    cases place with
    | start =>
      by_cases hx : isWhite x = true
      · obtain ⟨b, hb, heq⟩ := ih .leading
        exact ⟨b, hb, by simp [collapseFrom, hx, heq]⟩
      · obtain ⟨b, hb, heq⟩ := ih .inside
        exact ⟨b, hb, by simp [collapseFrom, hx, heq]⟩
    | leading =>
      by_cases hx : isWhite x = true
      · obtain ⟨b, hb, heq⟩ := ih .leading
        exact ⟨b, hb, by simp [collapseFrom, hx, heq]⟩
      · obtain ⟨b, hb, heq⟩ := ih .inside
        exact ⟨b, hb, by simp [collapseFrom, hx, heq]⟩
    | inside =>
      obtain ⟨b, hb, heq⟩ := ih (if x = '\n' then .start else .inside)
      exact ⟨b, hb, by simp [collapseFrom, heq]⟩

theorem flatten_append_break (t : Text) : flatten (t ++ ['\n']) = flatten t := by
  obtain ⟨b, hb, heq⟩ := collapseFrom_append_break .start t
  rw [flatten, heq, List.filter_append, trim_append_blank]
  · rfl
  · exact fun x hx => hb x (List.mem_of_mem_filter hx)

/-- A block on one line does not show whether its last line has a line end. -/
theorem flatten_echoLines (ls : List Text) :
    flatten (echoLines ls) = flatten (endLines (ls.map echoLine)) := by
  have hend : ∃ e, (e = [] ∨ e = ['\n']) ∧ endLines (ls.map echoLine) = echoLines ls ++ e := by
    induction ls with
    | nil => exact ⟨[], .inl rfl, rfl⟩
    | cons l ls ih =>
      cases ls with
      | nil =>
        by_cases hblank : l.all isIndent = true
        · exact ⟨['\n'], .inr rfl, by simp [echoLines, echoLine, hblank]⟩
        · exact ⟨[], .inl rfl, by simp [echoLines, hblank]⟩
      | cons k ls =>
        obtain ⟨e, he, heq⟩ := ih
        exact ⟨e, he, by rw [List.map_cons, endLines_cons, heq]; simp [echoLines]⟩
  obtain ⟨e, rfl | rfl, heq⟩ := hend
  · rw [heq, List.append_nil]
  · rw [heq, flatten_append_break]

theorem collapseFrom_start {x : Char} (hx : isWhite x = true) (t : Text) :
    collapseFrom .start (x :: t) = ' ' :: collapseFrom .leading (x :: t) := by
  simp [collapseFrom, hx]

theorem collapseFrom_leading (hw : ∀ x ∈ w, isWhite x = true) (t : Text) :
    collapseFrom .leading (w ++ t) = collapseFrom .leading t := by
  induction w with
  | nil => rfl
  | cons x w ih =>
    rw [List.cons_append, collapseFrom, if_pos (hw x (by simp)),
      ih fun y hy => hw y (List.mem_cons_of_mem x hy)]

theorem collapseFrom_inside (hu : '\n' ∉ u) (t : Text) :
    collapseFrom .inside (u ++ '\n' :: t) = u ++ '\n' :: collapseFrom .start t := by
  induction u with
  | nil => rfl
  | cons x u ih =>
    rw [List.mem_cons, not_or] at hu
    rw [List.cons_append, collapseFrom, if_neg (Ne.symm hu.1), ih hu.2]
    rfl

/-- A line is blank, or it is a line of text with an indentation. -/
def IsRow (p : Profile) (l : Text) : Prop :=
  l.all isBlank = true ∨ IsTextLine p l ∧ 0 < indentOf l

/-- Every line starts with white space, its line end if nothing else. -/
theorem exists_endLines_kept (h : IsRow p l) (ls : List Text) :
    ∃ x u, endLines ((l :: ls).map kept) = x :: u ∧ isWhite x = true := by
  rw [List.map_cons, endLines_cons]
  rcases h with hblank | ⟨htext, hpos⟩
  · rw [kept_blank hblank]
    exact ⟨'\n', _, rfl, by decide⟩
  · rw [htext.indentOf_eq] at hpos
    obtain ⟨x, w, hw⟩ := List.exists_cons_of_length_pos hpos
    have hx : isIndent x = true :=
      List.all_eq_true.mp List.all_takeWhile x (hw ▸ List.mem_cons_self ..)
    rw [htext.kept_eq, hw]
    exact ⟨x, _, rfl, isWhite_of_isIndent hx⟩

/-- One line of text: its content is kept, and its line end starts a new line. -/
theorem IsTextLine.collapseFrom_kept (h : IsTextLine p l) (t : Text) :
    collapseFrom .leading (kept l ++ '\n' :: t) =
      contentOf l ++ '\n' :: collapseFrom .start t := by
  obtain ⟨x, u, hcontent, hx, -, hbreak, -⟩ := h.exists_contentOf
  have hindent : ∀ y ∈ Node.uniform (l.takeWhile isIndent), isWhite y = true := by
    intro y hy
    refine isWhite_of_isIndent (List.all_eq_true.mp (List.all_takeWhile (l := l)) y ?_)
    cases hw : l.takeWhile isIndent with
    | nil =>
      rw [hw] at hy
      cases hy
    | cons z w =>
      rw [hw] at hy
      rw [List.eq_of_mem_replicate hy]
      exact List.mem_cons_self ..
  rw [List.mem_cons, not_or] at hbreak
  rw [h.kept_eq, List.append_assoc, collapseFrom_leading hindent, hcontent, List.cons_append,
    collapseFrom, if_neg (by simp [isWhite_eq_false hx]), collapseFrom_inside hbreak.2]
  rfl

/-- All lines: before the content of each there is one space, and at most blanks are left behind the
last one. -/
theorem collapseFrom_rows (h : ∀ l ∈ ls, IsRow p l) :
    ∃ b, (∀ x ∈ b, isBlank x = true) ∧
      ' ' :: (collapseFrom .leading (endLines (ls.map kept))).filter (· != '\n') =
        (contents ls).flatMap (' ' :: ·) ++ b := by
  induction ls with
  | nil => exact ⟨[' '], List.forall_mem_singleton.mpr rfl, rfl⟩
  | cons l ls ih =>
    obtain ⟨b, hb, heq⟩ := ih fun k hk => h k (List.mem_cons_of_mem l hk)
    rcases h l (by simp) with hblank | ⟨htext, -⟩
    · refine ⟨b, hb, ?_⟩
      rw [contents_cons_blank hblank, ← heq, List.map_cons, endLines_cons, kept_blank hblank]
      rfl
    · obtain ⟨x, u, hcontent, -, -, hbreak, -⟩ := htext.exists_contentOf
      have hkeep : (contentOf l).filter (· != '\n') = contentOf l := by
        rw [List.filter_eq_self, hcontent]
        exact fun y hy => bne_iff_ne.mpr fun hy' => hbreak (hy' ▸ hy)
      rw [List.map_cons, endLines_cons, htext.collapseFrom_kept, List.filter_append, hkeep,
        contents_cons_black htext.all_isBlank, List.flatMap_cons]
      -- the space before the next content comes from the white space that starts the next line
      cases ls with
      | nil => exact ⟨[], by simp, by simp [collapseFrom, contents]⟩
      | cons k ls =>
        obtain ⟨y, v, hcut, hy⟩ := exists_endLines_kept (h k (by simp)) ls
        refine ⟨b, hb, ?_⟩
        rw [hcut] at heq ⊢
        rw [collapseFrom_start hy, List.append_assoc, ← heq]
        rfl

theorem flatten_rows (h : ∀ l ∈ ls, IsRow p l) :
    flatten (endLines (ls.map kept)) = [' '].intercalate (contents ls) := by
  have htrimmed : ∀ v ∈ contents ls, Trimmed v := by
    intro v hv
    obtain ⟨l, hl, rfl⟩ := List.mem_map.mp hv
    rw [List.mem_filter] at hl
    rcases h l hl.1 with hblank | ⟨htext, -⟩
    · simp [hblank] at hl
    · obtain ⟨-, -, -, -, -, -, htrim⟩ := htext.exists_contentOf
      exact htrim
  cases ls with
  | nil => rfl
  | cons l ls =>
    obtain ⟨x, u, hcut, hx⟩ := exists_endLines_kept (h l (by simp)) ls
    obtain ⟨b, hb, heq⟩ := collapseFrom_rows h
    rw [hcut] at heq
    rw [hcut, flatten, collapseFrom_start hx, List.filter_cons_of_pos (by decide), heq,
      trim_append_blank hb, trim_flatMap_space htrimmed]

/-- A block of plain text is read up to the line end before the line that is less indented than its
first line, and its value is the contents of its lines with single spaces between them. -/
theorem blockValue_joins_lines {first next : Text} {rows : List Text}
    (hp : p.settings.outline = false) (hfirst : IsTextLine p first)
    (hrows : ∀ l ∈ rows, ('\n' ∉ l ∧ l.all isBlank = true) ∨
      (IsTextLine p l ∧ indentOf first ≤ indentOf l))
    (hnext : '\n' ∉ next ∧ next.all isBlank = false) (hless : indentOf next < indentOf first)
    (after : Text) :
    Reader.Reads (blockValue (compile p)) (unlines (first :: rows))
      ([' '].intercalate (contents (first :: rows))) ('\n' :: (next ++ after)) := by
  have hpos : 0 < indentOf first := Nat.zero_lt_of_lt hless
  have hall : ∀ l ∈ first :: rows, ('\n' ∉ l ∧ l.all isBlank = true) ∨
      (IsTextLine p l ∧ indentOf first ≤ indentOf l) :=
    List.forall_mem_cons.mpr ⟨.inr ⟨hfirst, Nat.le_refl _⟩, hrows⟩
  have hrow : ∀ l ∈ first :: rows, IsRow p l := fun l hl =>
    (hall l hl).imp And.right (And.imp_right (Nat.lt_of_lt_of_le hpos))
  have hfits : ∀ l ∈ first :: rows, '\n' ∉ l ∧ Fits (some (indentOf first)) l := by
    intro l hl
    rcases hall l hl with ⟨hbreak, hblank⟩ | ⟨htext, hle⟩
    · exact ⟨hbreak, .inl (List.all_eq_true.mp hblank)⟩
    · exact ⟨htext.unbroken, .inr hle⟩
  have hmargin : Reader.margin? (endLines (first :: rows) ++ (next ++ after)) =
      .ok (some (indentOf first)) := by
    rw [endLines_cons, List.append_assoc]
    exact Reader.margin?_of_black hfirst.unbroken hfirst.exists_black
  have hends : Ends (some (indentOf first)) (next ++ after) := by
    refine .inr ⟨_, hless, Reader.margin?_of_black hnext.1 ?_⟩
    simpa using hnext.2
  have hplain : ∀ l ∈ (first :: rows).map blankToEmpty, Node.IsPlainLine p l := by
    intro l hl
    obtain ⟨k, hk, rfl⟩ := List.mem_map.mp hl
    rcases hall k hk with ⟨-, hblank⟩ | ⟨htext, -⟩
    · rw [blankToEmpty, if_pos hblank]
      exact ⟨by simp, by simp [StartsPlain], InlineVariable.unmarked_of_not_mem (by simp)⟩
    · rw [blankToEmpty, if_neg (by simp [htext.all_isBlank])]
      exact htext.isPlainLine
  have hcompile := compile_plain_lines hp (by simp) hplain
  -- the first line is not blank, so no blank lines are left out at the start
  have hhead : ((first :: rows).map blankToEmpty).dropWhile (·.all isIndent) =
      (first :: rows).map blankToEmpty := by
    rw [List.map_cons, List.dropWhile_cons_of_neg]
    rw [blankToEmpty, if_neg (by simp [hfirst.all_isBlank]), hfirst.all_isIndent]
    exact Bool.false_ne_true
  have hvalue := reads_blockValue (by simp) hfits hmargin hends hcompile
  rw [hhead, flatten_echoLines, List.map_map] at hvalue
  rwa [← flatten_rows hrow]

/-- Lines of text that are indented in other ways than the first one, and blank lines. -/
def verse : List Text := ["", " \t", "\t    three\\", "   four = 4  ", "\x0b"].map String.toList

theorem blockValue_joins_lines_verse :
    IsTextLine {} "  one  two \t".toList ∧
    (∀ l ∈ verse, ('\n' ∉ l ∧ l.all isBlank = true) ∨
      (IsTextLine {} l ∧ indentOf "  one  two \t".toList ≤ indentOf l)) ∧
    Reader.Reads (blockValue (compile {}))
      "  one  two \t\n\n \t\n\t    three\\\n   four = 4  \n\x0b".toList
      "one  two three\\ four = 4".toList "\n b: 1\x7d".toList := by
  have hfirst : IsTextLine {} "  one  two \t".toList :=
    ⟨by decide, InlineVariable.unmarked_of_not_mem (by decide), 'o', _, rfl, by decide, by decide⟩
  have hthree : IsTextLine {} "\t    three\\".toList :=
    ⟨by decide, InlineVariable.unmarked_of_not_mem (by decide), 't', _, rfl, by decide, by decide⟩
  have hfour : IsTextLine {} "   four = 4  ".toList :=
    ⟨by decide, InlineVariable.unmarked_of_not_mem (by decide), 'f', _, rfl, by decide, by decide⟩
  have hverse : ∀ l ∈ verse, ('\n' ∉ l ∧ l.all isBlank = true) ∨
      (IsTextLine {} l ∧ indentOf "  one  two \t".toList ≤ indentOf l) := by
    simp only [verse, List.map_cons, List.map_nil, List.forall_mem_cons]
    exact ⟨.inl (by decide), .inl (by decide), .inr ⟨hthree, by decide⟩, .inr ⟨hfour, by decide⟩,
      .inl (by decide), by simp⟩
  exact ⟨hfirst, hverse,
    blockValue_joins_lines rfl hfirst hverse (by decide : '\n' ∉ " b: 1".toList ∧ _) (by decide)
      "\x7d".toList⟩

end Attribute

end Haml
