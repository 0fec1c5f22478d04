import Haml.Proofs.Text.OpenVariables

/-!
Texts that are put together from segments: literal text, inline variables and escaped ones, in any
order. Main statement: replacing goes segment by segment. Both passes can only begin at a mark or at
a backslash, and a segment has these only at its front; so no match begins inside a segment, and
none begins in what the first pass wrote.
-/
namespace Haml.InlineVariable

variable {b : Bool} {before : Option Char} {t u : Text}

/-- No variable begins in the text, and none is escaped by it. -/
def Quiet (b : Bool) (t : Text) : Prop := ∀ x ∈ t, isMark b x = false ∧ x ≠ '\\'

instance : Decidable (White t) := List.decidableBAll (fun x => Text.isWhite x = true) t

instance : Decidable (Quiet b t) := List.decidableBAll (fun x => isMark b x = false ∧ x ≠ '\\') t

structure Variable (b : Bool) where
  mark : Char
  lead : Text
  body : Text
  trail : Text
  isMark_mark : isMark b mark = true
  white_lead : White lead
  white_trail : White trail
  quiet : Quiet b body
  ne_nil : body ≠ []
  endless : body.any isStop = false
  first : ∀ x ∈ body.head?, Text.isWhite x = false
  last : ∀ x ∈ body.getLast?, Text.isWhite x = false

/-- A part of a text; `b` says which marks are enabled. -/
inductive Segment (b : Bool) where
  | literal (t : Text) (h : Quiet b t)
  | live (v : Variable b)
  | escaped (v : Variable b)

namespace Variable

def braces (v : Variable b) : Text := '{' :: (v.lead ++ v.body ++ v.trail ++ ['}'])

def written (v : Variable b) : Text := v.mark :: v.braces

def expression (v : Variable b) : Text := "\x7b\x7b ".toList ++ v.body ++ " \x7d\x7d".toList

end Variable

namespace Segment

def written : Segment b → Text
  | literal t _ => t
  | live v => v.written
  | escaped v => '\\' :: v.written

/-- What the first pass makes of a segment. -/
def expanded : Segment b → Text
  | literal t _ => t
  | live v => v.expression
  | escaped v => '\\' :: v.written

/-- What a segment is shown as. -/
def shown : Segment b → Text
  | literal t _ => t
  | live v => v.expression
  | escaped v => v.written

end Segment

/-! ## Quiet texts -/

theorem not_mark_backslash : isMark b '\\' = false := by cases b <;> decide

theorem ne_backslash_of_mark {x : Char} (h : isMark b x = true) : x ≠ '\\' := by
  rintro rfl
  rw [not_mark_backslash] at h
  cases h

theorem Quiet.append (ht : Quiet b t) (hu : Quiet b u) : Quiet b (t ++ u) := by
  intro x hx
  rcases List.mem_append.mp hx with hx | hx
  · exact ht x hx
  · exact hu x hx

theorem White.quiet (h : White t) : Quiet b t := by
  intro x hx
  refine ⟨not_mark_of_white (h x hx), ?_⟩
  rintro rfl
  exact absurd (h _ hx) (by decide)

/-- Braces and spaces around something quiet. -/
theorem Quiet.framed (h : Quiet b t) (front back : Text) (hfront : front ⊆ ['{', '}', ' '])
    (hback : back ⊆ ['{', '}', ' ']) : Quiet b (front ++ t ++ back) := by
  have hframe : Quiet b ['{', '}', ' '] := by cases b <;> decide
  exact Quiet.append (Quiet.append (fun x hx => hframe x (hfront hx)) h)
    fun x hx => hframe x (hback hx)

theorem Variable.quiet_braces (v : Variable b) : Quiet b v.braces := by
  have hinside := (v.white_lead.quiet.append v.quiet).append v.white_trail.quiet
  exact hinside.framed ['{'] ['}'] (by simp) (by simp)

theorem Variable.quiet_expression (v : Variable b) : Quiet b v.expression :=
  v.quiet.framed _ _ (by simp) (by simp)

/-- The first pass leaves quiet text alone. -/
theorem expandFrom_quiet (ht : Quiet b t) (hbefore : before ≠ some '\\') (w : Text) :
    expandFrom b before (t ++ w) = t ++ expandFrom b none w := by
  induction t generalizing before with
  | nil => exact expandFrom_before hbefore
  | cons x t ih =>
    obtain ⟨hmark, hslash⟩ := ht x (by simp)
    rw [List.cons_append, expandFrom_step (.inr (start?_of_not_mark hmark _)),
      ih (fun y hy => ht y (List.mem_cons_of_mem x hy)) fun h => hslash (Option.some.inj h)]
    rfl

/-- The second pass leaves quiet text alone. -/
theorem unescape_quiet (ht : Quiet b t) (w : Text) : unescape b (t ++ w) = t ++ unescape b w := by
  induction t with
  | nil => rfl
  | cons x t ih =>
    rw [List.cons_append, unescape_step (.inl (ht x (by simp)).2),
      ih fun y hy => ht y (List.mem_cons_of_mem x hy)]
    rfl

/-! ## Segment by segment -/

theorem Variable.start? (v : Variable b) (w : Text) :
    InlineVariable.start? b (v.written ++ w) = some (v.body, w) := by
  have hbody : ∀ x ∈ v.body, x ≠ '}' ∧ x ≠ '\n' := by
    intro x hx
    simpa [isStop] using List.any_eq_false.mp v.endless x hx
  have hfound := start?_eq_some v.isMark_mark v.ne_nil hbody v.first v.last v.white_lead
    v.white_trail w
  simpa [written, braces] using hfound

theorem expandFrom_segment (s : Segment b) (hbefore : before ≠ some '\\') (w : Text) :
    expandFrom b before (s.written ++ w) = s.expanded ++ expandFrom b none w := by
  cases s with
  | literal t h => exact expandFrom_quiet h hbefore w
  | live v =>
    have hbrace : some '}' ≠ some '\\' := by decide
    rw [Segment.written, expandFrom_start hbefore (v.start? w), expandFrom_before hbrace]
    simp [Segment.expanded, Variable.expression]
  | escaped v =>
    have hmark : some v.mark ≠ some '\\' :=
      fun h => ne_backslash_of_mark v.isMark_mark (Option.some.inj h)
    rw [Segment.written, List.cons_append,
      expandFrom_step (.inr (start?_of_not_mark not_mark_backslash _)), Variable.written,
      List.cons_append, expandFrom_step (.inl rfl), expandFrom_quiet v.quiet_braces hmark]
    rfl

theorem unescape_segment (s : Segment b) (w : Text) :
    unescape b (s.expanded ++ w) = s.shown ++ unescape b w := by
  cases s with
  | literal t h => exact unescape_quiet h w
  | live v => exact unescape_quiet v.quiet_expression w
  | escaped v =>
    have htaken : (v.written ++ w).take ((v.written ++ w).length - w.length) = v.written := by
      rw [List.length_append, Nat.add_sub_cancel, List.take_left]
    rw [Segment.expanded, List.cons_append, unescape_start (v.start? w), htaken]
    rfl

theorem expandFrom_segments (segments : List (Segment b)) :
    expandFrom b none (segments.flatMap Segment.written) = segments.flatMap Segment.expanded := by
  induction segments with
  | nil => rw [List.flatMap_nil, expandFrom, List.flatMap_nil]
  | cons s segments ih =>
    rw [List.flatMap_cons, expandFrom_segment s (by simp), ih, List.flatMap_cons]

theorem unescape_segments (segments : List (Segment b)) :
    unescape b (segments.flatMap Segment.expanded) = segments.flatMap Segment.shown := by
  induction segments with
  | nil => rw [List.flatMap_nil, unescape, List.flatMap_nil]
  | cons s segments ih => rw [List.flatMap_cons, unescape_segment, ih, List.flatMap_cons]

/-- Replacing goes segment by segment: literal text stays, a variable becomes an expression, and an
escaped one loses its backslash. -/
theorem replace_segmentwise (segments : List (Segment b)) :
    replace b (segments.flatMap Segment.written) = segments.flatMap Segment.shown := by
  rw [replace, expandFrom_segments, unescape_segments]

def titleVariable : Variable true where
  mark := '#'
  lead := "  ".toList
  body := "a|b:\x7bc".toList
  trail := " ".toList
  isMark_mark := rfl
  white_lead := by decide
  white_trail := by decide
  quiet := by decide
  ne_nil := by decide
  endless := by decide
  first := by rintro _ ⟨⟩; decide
  last := by rintro _ ⟨⟩; decide

def countVariable : Variable true where
  mark := '='
  lead := []
  body := "n".toList
  trail := []
  isMark_mark := rfl
  white_lead := by decide
  white_trail := by decide
  quiet := by decide
  ne_nil := by decide
  endless := by decide
  first := by rintro _ ⟨⟩; decide
  last := by rintro _ ⟨⟩; decide

def mixedSegments : List (Segment true) :=
  [.escaped titleVariable, .live countVariable, .live titleVariable,
    .literal "\x7d\x7b\n".toList (by decide), .escaped countVariable]

theorem replace_segmentwise_mixed :
    mixedSegments.flatMap Segment.written =
      "\\#\x7b  a|b:\x7bc \x7d=\x7bn\x7d#\x7b  a|b:\x7bc \x7d\x7d\x7b\n\\=\x7bn\x7d".toList ∧
    replace true (mixedSegments.flatMap Segment.written) =
      "#\x7b  a|b:\x7bc \x7d\x7b\x7b n \x7d\x7d".toList ++
        "\x7b\x7b a|b:\x7bc \x7d\x7d\x7d\x7b\n=\x7bn\x7d".toList :=
  ⟨rfl, (replace_segmentwise mixedSegments).trans rfl⟩

end Haml.InlineVariable
