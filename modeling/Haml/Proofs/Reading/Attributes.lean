import Haml.Proofs.Reading.Lexical
import Haml.Proofs.Reading.Turns

/-!
The readers of attributes. Every entry of a dictionary leaves less to be read, also one with a block
value: a block has at least one line, so the step back after it does not lead before its start. The
text of a block is shorter than the text that it stands in, because a line break comes before it.
-/
namespace Haml

/-- Two ways to compile block values that agree on texts shorter than `n`. Their failures there
satisfy `E`, as do all failures but that of a loop without an end. -/
structure Blocks (n : Nat) (E : Failure → Prop) (block block' : Text → Except Failure Text) :
    Prop where
  failures : ∀ e, e ≠ .stalled → E e
  agree : ∀ u, u.length < n → block' u = block u
  failed : ∀ u e, u.length < n → block u = .error e → E e

theorem Blocks.since {c c₁ : Cursor} {E : Failure → Prop}
    {block block' : Text → Except Failure Text} (B : Blocks c.text.length E block block')
    (h : c.Moves c₁) :
    Blocks c₁.text.length E block block' := by
  rw [h.text_eq]
  exact B

namespace Reader

variable {α : Type} {c c₁ : Cursor} {E : Failure → Prop}

theorem gather_alike {turn turn' : Reader (Option α)} {I Q : List α → Cursor → Prop}
    {acc : List α}
    (h : Alike c E (fun o c₂ => match o with
        | some a => c₂.rest.length < c₁.rest.length ∧ I (a :: acc) c₂
        | none => Q acc.reverse c₂) (turn c₁) (turn' c₁)) :
    Alike c E (Turned I Q c₁) (gather turn acc c₁) (gather turn' acc c₁) := by
  refine h.bind fun o c₂ h₂ ho => ?_
  cases o with
  | none => exact alike_pure h₂ ho
  | some a => exact alike_pure h₂ ho

theorem length_lt_of_append {w : Text} {c₂ : Cursor} (hw : w ≠ []) (h : c₁.rest = w ++ c₂.rest) :
    c₂.rest.length < c₁.rest.length := by
  have := List.length_pos_iff.mpr hw
  rw [h, List.length_append]
  omega

theorem length_le_of_append {w : Text} {c₂ : Cursor} (h : c₁.rest = w ++ c₂.rest) :
    c₂.rest.length ≤ c₁.rest.length := by
  rw [h, List.length_append]
  omega

end Reader

namespace Attribute

open Reader

variable {c c₁ : Cursor} {E : Failure → Prop} {s : Settings}
  {block block' : Text → Except Failure Text}

theorem scalar_alike (hE : ∀ e, e ≠ .stalled → E e) (h₁ : c.Moves c₁) :
    Alike c E (fun _ c₂ => c₂.rest.length < c₁.rest.length) (scalar s c₁) (scalar s c₁) := by
  refine (peek_alike hE h₁).bind fun x c₂ h₂ hx => ?_
  obtain ⟨rfl, t, ht⟩ := hx
  refine .ite (fun _ => ?_) (fun _ => .ite (fun hd => ?_) (fun _ => ?_))
  · exact (quotedString_alike hE h₂).bind fun _ c₃ h₃ hlt => alike_pure h₃ hlt
  · refine (number_alike hE h₂).bind fun n c₃ h₃ hn => alike_pure h₃ ?_
    refine length_lt_of_append ?_ hn.2
    rw [hn.1, ht, List.takeWhile_cons, if_pos (by simp [hd])]
    simp
  · refine (word_alike hE _ h₂).bind fun w c₃ h₃ hw => alike_pure h₃ ?_
    exact hw.length_lt

theorem itemTurn_alike (hE : ∀ e, e ≠ .stalled → E e) (close : Char) (h₁ : c.Moves c₁) :
    Alike c E (fun o c₂ => match o with
        | some _ => c₂.rest.length < c₁.rest.length
        | none => ∃ t, c₂.rest = close :: t) (itemTurn s close c₁) (itemTurn s close c₁) := by
  refine (indentation_alike h₁).bind fun t c₂ h₂ ht => ?_
  refine (peek_alike hE h₂).bind fun x c₃ h₃ hx => ?_
  obtain ⟨rfl, r, hr⟩ := hx
  refine .ite (fun hclose => alike_pure h₃ ⟨r, hclose ▸ hr⟩) (fun _ => ?_)
  refine (scalar_alike hE h₃).bind fun v c₄ h₄ hv => ?_
  refine (indentation_alike h₄).bind fun t' c₅ h₅ ht' => ?_
  refine (peek_alike hE h₅).bind fun y c₆ h₆ hy => ?_
  obtain ⟨rfl, _⟩ := hy
  have hle := length_le_of_append ht.2
  have hle' := length_le_of_append ht'.2
  refine .ite (fun _ => ?_) (fun _ => alike_pure h₆ (by omega))
  refine (symbol_alike hE _ h₆).bind fun _ c₇ h₇ hs => alike_pure h₇ ?_
  have := length_le_of_append hs.2
  omega

/-- The items end at the closing bracket. -/
theorem items_alike (hE : ∀ e, e ≠ .stalled → E e) (close : Char) (steps : Text)
    (h₁ : c.Moves c₁) (hsteps : c₁.rest.length < steps.length) :
    Alike c E (fun _ c₂ => ∃ t, c₂.rest = close :: t)
      (items s close steps c₁) (items s close steps c₁) := by
  rw [items_eq]
  refine iterate_alike (I := fun _ _ => True) (fun acc c' h' _ => ?_) steps steps [] h₁ trivial
    hsteps hsteps
  refine gather_alike ((itemTurn_alike hE close h').mono fun o c₂ _ ho => ?_)
  cases o with
  | none => exact ho
  | some v => exact ⟨ho, trivial⟩

theorem list_alike (hE : ∀ e, e ≠ .stalled → E e) (h₁ : c.Moves c₁) :
    Alike c E (fun _ c₂ => c₂.rest.length < c₁.rest.length) (list s c₁) (list s c₁) := by
  refine (peek_alike hE h₁).bind fun x c₂ h₂ hx => ?_
  obtain ⟨rfl, t, ht⟩ := hx
  refine .ite (fun _ => ?_) (fun _ => alike_throw h₂ (hE _ (by simp)))
  refine (skip_alike h₂ ht).bind fun _ c₃ h₃ hs => ?_
  refine (allowance_alike h₃).bind fun steps c₄ h₄ ha => ?_
  obtain ⟨rfl, rfl⟩ := ha
  refine ((items_alike hE _ _ (.refl h₄.1) (by simp)).since h₄).bind fun vs c₅ h₅ hv => ?_
  obtain ⟨h₄₅, r, hr⟩ := hv
  refine (skip_alike h₅ hr).bind fun _ c₆ h₆ hs' => alike_pure h₆ ?_
  have h1 := congrArg List.length hs.1
  have h2 := congrArg List.length hs'.1
  have h3 := h₄₅.length_le
  simp only [List.length_cons] at h1 h2
  omega

/-- The lines of a block with a line end after each. -/
def weight : List Text → Nat
  | [] => 0
  | l :: ls => l.length + 1 + weight ls

theorem weight_append (ls ms : List Text) : weight (ls ++ ms) = weight ls + weight ms := by
  induction ls with
  | nil => simp [weight]
  | cons l ls ih =>
    simp only [List.cons_append, weight, ih]
    omega

theorem weight_reverse (ls : List Text) : weight ls.reverse = weight ls := by
  induction ls with
  | nil => rfl
  | cons l ls ih =>
    simp only [List.reverse_cons, weight_append, weight, ih]
    omega

theorem length_unlines {ls : List Text} (h : ls ≠ []) :
    (Text.unlines ls).length + 1 = weight ls := by
  induction ls with
  | nil => exact absurd rfl h
  | cons l ls ih =>
    cases ls with
    | nil => simp [Text.unlines, weight]
    | cons l' ls =>
      have := ih (by simp)
      simp only [Text.unlines, weight, List.intercalate_cons_cons, List.length_append,
        List.length_cons, List.length_nil] at this ⊢
      omega

theorem length_blankToEmpty_le (l : Text) : (blankToEmpty l).length ≤ l.length := by
  unfold blankToEmpty
  split
  · simp
  · omega

/-- What holds while the lines `acc` of a block are read from `c` on: they are no longer than what
was passed over, but for the missing line end of a last line. -/
structure Taken (c : Cursor) (acc : List Text) (c₁ : Cursor) : Prop where
  bound : weight acc + c₁.rest.length ≤ c.rest.length + (if c₁.rest = [] then 1 else 0)
  start : acc = [] → c₁ = c
  moved : acc ≠ [] → c₁.rest.length < c.rest.length

theorem Taken.line {acc : List Text} {l : Text} {c₂ : Cursor} (h : Taken c acc c₁)
    (hne : c₁.rest ≠ []) (hl : LineRead c₁ l c₂) : Taken c (blankToEmpty l :: acc) c₂ := by
  have hb := h.bound
  have hlen := length_blankToEmpty_le l
  have hlt := hl.length_lt hne
  have hle : c₁.rest.length ≤ c.rest.length := by
    by_cases ha : acc = []
    · simp [h.start ha]
    · exact Nat.le_of_lt (h.moved ha)
  rw [if_neg hne] at hb
  refine ⟨?_, by simp, fun _ => by omega⟩
  simp only [weight] at hb ⊢
  rcases hl.2 with hr | ⟨hr, hr'⟩
  · simp only [hr, List.length_append, List.length_cons] at hb
    omega
  · rw [if_pos hr', hr']
    rw [hr] at hb
    simp only [List.length_nil]
    omega

/-- What a turn ends with that takes the line ahead, or that takes nothing because `P` holds. -/
def LineTaken (c₁ : Cursor) (P : Prop) : Option Text → Cursor → Prop
  | some l, c₂ => c₁.rest ≠ [] ∧ ∃ l', LineRead c₁ l' c₂ ∧ l = blankToEmpty l'
  | none, c₂ => c₂ = c₁ ∧ P

theorem LineTaken.length_lt {P : Prop} {l : Text} {c₂ : Cursor} (h : LineTaken c₁ P (some l) c₂) :
    c₂.rest.length < c₁.rest.length := by
  obtain ⟨hne, l', hl, _⟩ := h
  exact hl.length_lt hne

theorem lineTaken_alike (P : Prop) (h₁ : c.Moves c₁) (hne : c₁.rest ≠ []) :
    Alike c E (LineTaken c₁ P)
      ((do return some (blankToEmpty (← Reader.line)) : Reader (Option Text)) c₁)
      ((do return some (blankToEmpty (← Reader.line)) : Reader (Option Text)) c₁) :=
  (line_alike h₁).bind fun l _ h₂ hl => alike_pure h₂ ⟨hne, l, hl, rfl⟩

/-- A block ends before a line that has not its margin. -/
theorem blockTurn_alike (hE : ∀ e, e ≠ .stalled → E e) (margin : Option Nat) (h₁ : c.Moves c₁) :
    Alike c E (LineTaken c₁ (margin? c₁.rest ≠ .ok margin))
      (blockTurn margin c₁) (blockTurn margin c₁) := by
  refine (atEnd_alike h₁).bind fun b c₂ h₂ hb => ?_
  obtain ⟨rfl, hb⟩ := hb
  refine .ite (fun hend => alike_pure h₂ ⟨rfl, ?_⟩) (fun hend => ?_)
  · simp [hb.mp hend, margin?]
  · have hline := lineTaken_alike (E := E) (margin? c₂.rest ≠ .ok margin) h₂
      fun he => hend (hb.mpr he)
    refine (peekMargin_alike hE h₂).bind fun m c₃ h₃ hm => ?_
    obtain ⟨rfl, hm⟩ := hm
    cases m with
    | none => exact hline
    | some m =>
      cases margin with
      | none => exact alike_throw h₃ (hE _ (by simp))
      | some least =>
        refine .ite (fun hlt => alike_pure h₃ ⟨rfl, ?_⟩) (fun _ => hline)
        rw [hm]
        intro he
        obtain rfl : m = least := by simpa using he
        omega

/-- The lines of a block: there is at least one, and they were passed over. -/
theorem blockLines_alike (hE : ∀ e, e ≠ .stalled → E e) (hc : c.Within) {margin : Option Nat}
    (hm : margin? c.rest = .ok margin) :
    Alike c E (fun ls c' => ls ≠ [] ∧ Taken c ls.reverse c')
      (blockLines margin (' ' :: c.rest) c) (blockLines margin (' ' :: c.rest) c) := by
  rw [blockLines_eq]
  refine iterate_alike (I := Taken c) (fun acc c' h' ht => ?_) _ _ [] (.refl hc) ?_ (by simp)
    (by simp)
  · refine gather_alike ((blockTurn_alike hE margin h').mono fun o c'' _ ho => ?_)
    cases o with
    | none =>
      -- a block has a first line, because its margin was seen there
      obtain ⟨rfl, hend⟩ := ho
      refine ⟨fun he => hend ?_, ?_⟩
      · rw [ht.start (List.reverse_eq_nil_iff.mp he)]
        exact hm
      · rw [List.reverse_reverse]
        exact ht
    | some l =>
      refine ⟨ho.length_lt, ?_⟩
      obtain ⟨hne, l', hl, rfl⟩ := ho
      exact ht.line hne hl
  · exact ⟨by simp [weight], fun _ => rfl, by simp⟩

/-- The text of a block is no longer than what there was to read. -/
theorem Taken.length_unlines_le {ls : List Text} (hne : ls ≠ []) (h : Taken c ls.reverse c₁) :
    (Text.unlines ls).length ≤ c.rest.length := by
  have hb := h.bound
  have hw : weight ls.reverse = weight ls := weight_reverse ls
  have hu := length_unlines hne
  split at hb
  · omega
  · omega

/-- A block value ends at or after its start, and its text is no longer than what there is to read. -/
theorem blockValue_alike {n : Nat} (hc : c.Within) (hn : c.rest.length < n)
    (B : Blocks n E block block') :
    Alike c E (fun _ _ => True) (blockValue block c) (blockValue block' c) := by
  refine (peekMargin_alike B.failures (.refl hc)).bind fun m c₁ h₁ hm => ?_
  obtain ⟨rfl, hm⟩ := hm
  refine (allowance_alike h₁).bind fun steps c₂ h₂ ha => ?_
  obtain ⟨rfl, rfl⟩ := ha
  refine (blockLines_alike B.failures hc hm).bind fun ls c₃ h₃ hls => ?_
  obtain ⟨hne, ht⟩ := hls
  have hback : c₂.Moves c₃.back := h₃.back (ht.moved (by simpa using hne))
  have hshort := Nat.lt_of_le_of_lt (ht.length_unlines_le hne) hn
  refine Alike.bind (Q := fun _ c' => c' = c₃.back) (alike_ok hback rfl) fun _ c₄ h₄ he => ?_
  subst he
  rw [B.agree _ hshort]
  cases hblock : block (Text.unlines ls) with
  | ok html => exact alike_pure h₄ trivial
  | error e => exact alike_throw h₄ (B.failed _ e hshort hblock)

theorem assigned_alike {opens : Char → Bool} (hc : c.Within)
    (B : Blocks c.text.length E block block') :
    Alike c E (fun _ _ => True) (assigned s block opens c) (assigned s block' opens c) := by
  have hE := B.failures
  refine (indentation_alike (.refl hc)).bind fun _ c₁ h₁ _ => ?_
  refine (expectInput_alike hE h₁).bind fun _ c₂ h₂ _ => ?_
  refine (peek_alike hE h₂).bind fun x c₃ h₃ hx => ?_
  obtain ⟨rfl, t, ht⟩ := hx
  refine .ite (fun _ => ?_) (fun _ => .ite (fun _ => ?_) (fun _ => ?_))
  · refine (skip_alike h₃ ht).bind fun _ c₄ h₄ hs => ?_
    have hshort : c₄.rest.length < c₄.text.length := by
      simp only [Cursor.text, hs.2, List.length_append, List.length_reverse, List.length_cons]
      omega
    refine ((blockValue_alike h₄.1 hshort (B.since h₄)).since h₄).bind fun _ c₅ h₅ _ => ?_
    exact alike_pure h₅ trivial
  · exact (list_alike hE h₃).bind fun _ c₄ h₄ _ => alike_pure h₄ trivial
  · exact (scalar_alike hE h₃).bind fun _ c₄ h₄ _ => alike_pure h₄ trivial

theorem bareKey_alike (hE : ∀ e, e ≠ .stalled → E e) (h₁ : c.Moves c₁) :
    Alike c E (fun _ c₂ => c₂.rest.length < c₁.rest.length) (bareKey c₁) (bareKey c₁) := by
  refine (peek_alike hE h₁).bind fun x c₂ h₂ hx => ?_
  obtain ⟨rfl, _⟩ := hx
  refine .ite (fun _ => ?_) (fun _ => ?_)
  · refine (quotedString_alike hE h₂).bind fun key c₃ h₃ hlt => ?_
    exact .ite (fun _ => reject_alike hE h₃ _) (fun _ => alike_pure h₃ hlt)
  · exact (word_alike hE _ h₂).mono fun w c₃ _ hw => hw.length_lt

/-- A key in braces, with or without a colon in front, and what is read after it. -/
theorem bracedKey_alike {β : Type} {R : β → Cursor → Prop} {f f' : Text → Reader β} {x : Char}
    {t : Text} (hE : ∀ e, e ≠ .stalled → E e) (h₁ : c.Moves c₁) (hx : c₁.rest = x :: t)
    (hf : ∀ key c₂, c.Moves c₂ → c₂.rest.length < c₁.rest.length →
      Alike c E R (f key c₂) (f' key c₂)) :
    Alike c E R
      ((if x = ':' then do Reader.skip; let key ← Reader.word isDash; f key
        else do let key ← bareKey; f key) c₁)
      ((if x = ':' then do Reader.skip; let key ← Reader.word isDash; f' key
        else do let key ← bareKey; f' key) c₁) := by
  refine .ite (fun _ => ?_) (fun _ => ?_)
  · refine (skip_alike h₁ hx).bind fun _ c₂ h₂ hs => ?_
    refine (word_alike hE _ h₂).bind fun w c₃ h₃ hw => hf w c₃ h₃ ?_
    have h1 := congrArg List.length hs.1
    have h2 := hw.length_lt
    simp only [List.length_cons] at h1
    omega
  · exact (bareKey_alike hE h₁).bind fun key c₂ h₂ hlt => hf key c₂ h₂ hlt

theorem bracedEntry_alike (hc : c.Within) (B : Blocks c.text.length E block block') :
    Alike c E (fun _ c₁ => c₁.rest.length < c.rest.length)
      (bracedEntry s block c) (bracedEntry s block' c) := by
  have hE := B.failures
  refine (peek_alike hE (.refl hc)).bind fun x c₁ h₁ hx => ?_
  obtain ⟨rfl, t, ht⟩ := hx
  refine bracedKey_alike hE h₁ ht fun key c₂ h₂ hlt => ?_
  refine (indentation_alike h₂).bind fun t c₃ h₃ ht => ?_
  have hle := length_le_of_append ht.2
  refine (peek_alike hE h₃).bind fun x c₄ h₄ hx => ?_
  obtain ⟨rfl, _⟩ := hx
  refine .ite (fun _ => ?_) (fun _ => alike_pure h₄ (by omega))
  refine (symbol_alike hE _ h₄).bind fun _ c₅ h₅ hs => ?_
  have hle' := length_le_of_append hs.2
  refine ((assigned_alike h₅.1 (B.since h₅)).since h₅).bind fun _ c₆ h₆ hm => ?_
  have := hm.1.length_le
  exact alike_pure h₆ (by omega)

theorem parenEntry_alike (hc : c.Within) (B : Blocks c.text.length E block block') :
    Alike c E (fun _ c₁ => c₁.rest.length < c.rest.length)
      (parenEntry s block c) (parenEntry s block' c) := by
  have hE := B.failures
  refine (word_alike hE _ (.refl hc)).bind fun key c₁ h₁ hw => ?_
  have hlt := hw.length_lt
  refine (peek_alike hE h₁).bind fun x c₂ h₂ hx => ?_
  obtain ⟨rfl, _⟩ := hx
  refine .ite (fun _ => ?_) (fun _ => ?_)
  · exact (unexpected_alike hE (Q := fun _ _ => False) h₂).bind fun _ _ _ h => h.elim
  · refine (indentation_alike h₂).bind fun t c₃ h₃ ht => ?_
    have hle := length_le_of_append ht.2
    refine (peek_alike hE h₃).bind fun y c₄ h₄ hy => ?_
    obtain ⟨rfl, _⟩ := hy
    refine .ite (fun _ => ?_) (fun _ => alike_pure h₄ (by omega))
    refine (symbol_alike hE _ h₄).bind fun _ c₅ h₅ hs => ?_
    have hle' := length_le_of_append hs.2
    refine ((assigned_alike h₅.1 (B.since h₅)).since h₅).bind fun _ c₆ h₆ hm => ?_
    have := hm.1.length_le
    exact alike_pure h₆ (by omega)

theorem record_alike (hE : ∀ e, e ≠ .stalled → E e) (d : Attributes) (entry : Text × Value)
    (h₁ : c.Moves c₁) :
    Alike c E (fun _ c₂ => c₂ = c₁) (record d entry c₁) (record d entry c₁) :=
  .ite (fun _ => reject_alike hE h₁ _) (fun _ => alike_pure h₁ rfl)

theorem parenTurn_alike (d : Attributes) (hc : c.Within)
    (B : Blocks c.text.length E block block') :
    Alike c E (Turned (fun _ _ => True) (fun _ _ => True) c)
      (parenTurn s block d c) (parenTurn s block' d c) := by
  have hE := B.failures
  refine (gap_alike (.refl hc)).bind fun g c₁ h₁ hg => ?_
  refine (atEnd_alike h₁).bind fun b c₂ h₂ hb => ?_
  obtain ⟨rfl, _⟩ := hb
  refine .ite (fun _ => reject_alike hE h₂ _) (fun _ => ?_)
  refine (peek_alike hE h₂).bind fun x c₃ h₃ hx => ?_
  obtain ⟨rfl, t, ht⟩ := hx
  refine .ite (fun _ => ?_) (fun _ => ?_)
  · exact (skip_alike h₃ ht).bind fun _ c₄ h₄ _ => alike_pure h₄ trivial
  · refine ((parenEntry_alike h₃.1 (B.since h₃)).since h₃).bind fun entry c₄ h₄ hentry => ?_
    refine (record_alike hE d entry h₄).bind fun d' c₅ h₅ he => ?_
    subst he
    refine (indentation_alike h₅).bind fun t' c₆ h₆ ht' => ?_
    refine (peek_alike hE h₆).bind fun y c₇ h₇ hy => ?_
    obtain ⟨rfl, _⟩ := hy
    refine .ite (fun _ => reject_alike hE h₇ _) (fun _ => alike_pure h₇ ⟨?_, trivial⟩)
    have h1 := length_le_of_append hg.2
    have h2 := length_le_of_append ht'.2
    have h3 := hentry.2
    omega

theorem bracedTurn_alike (d : Attributes) (hc : c.Within)
    (B : Blocks c.text.length E block block') :
    Alike c E (Turned (fun _ _ => True) (fun _ _ => True) c)
      (bracedTurn s block d c) (bracedTurn s block' d c) := by
  have hE := B.failures
  refine (gap_alike (.refl hc)).bind fun g c₁ h₁ hg => ?_
  refine (atEnd_alike h₁).bind fun b c₂ h₂ hb => ?_
  obtain ⟨rfl, _⟩ := hb
  refine .ite (fun _ => reject_alike hE h₂ _) (fun _ => ?_)
  refine (peek_alike hE h₂).bind fun x c₃ h₃ hx => ?_
  obtain ⟨rfl, t, ht⟩ := hx
  refine .ite (fun _ => ?_) (fun _ => ?_)
  · exact (skip_alike h₃ ht).bind fun _ c₄ h₄ _ => alike_pure h₄ trivial
  · refine ((bracedEntry_alike h₃.1 (B.since h₃)).since h₃).bind fun entry c₄ h₄ hentry => ?_
    refine (record_alike hE d entry h₄).bind fun d' c₅ h₅ he => ?_
    subst he
    refine (indentation_alike h₅).bind fun t' c₆ h₆ ht' => ?_
    refine (peek_alike hE h₆).bind fun y c₇ h₇ hy => ?_
    obtain ⟨rfl, _⟩ := hy
    have h1 := length_le_of_append hg.2
    have h2 := length_le_of_append ht'.2
    have h3 := hentry.2
    refine .ite (fun _ => ?_) (fun _ => alike_pure h₇ ⟨by omega, trivial⟩)
    refine (symbol_alike hE _ h₇).bind fun _ c₈ h₈ hs => alike_pure h₈ ⟨?_, trivial⟩
    have h4 := length_le_of_append hs.2
    omega

/-- A dictionary ends, and it leaves less to be read. -/
theorem dictionary_alike (hc : c.Within) (B : Blocks c.text.length E block block') :
    Alike c E (fun _ c₁ => c₁.rest.length < c.rest.length)
      (dictionary s block c) (dictionary s block' c) := by
  have hE := B.failures
  -- the loop over the entries starts after the opening bracket
  have hloop : ∀ {turn turn' : Attributes → Reader (Attributes ⊕ Attributes)} {x : Char} {t : Text},
      (∀ d (c₁ : Cursor), c₁.Within → Blocks c₁.text.length E block block' →
        Alike c₁ E (Turned (fun _ _ => True) (fun _ _ => True) c₁) (turn d c₁) (turn' d c₁)) →
      c.rest = x :: t →
      Alike c E (fun _ c₁ => c₁.rest.length < c.rest.length)
        ((do Reader.skip; iterate turn (← Reader.allowance) [] : Reader Attributes) c)
        ((do Reader.skip; iterate turn' (← Reader.allowance) [] : Reader Attributes) c) := by
    intro turn turn' x t hturn hx
    refine (skip_alike (.refl hc) hx).bind fun _ c₁ h₁ hs => ?_
    refine (allowance_alike h₁).bind fun steps c₂ h₂ ha => ?_
    obtain ⟨rfl, rfl⟩ := ha
    have hiterate : Alike c₂ E (fun _ _ => True) (iterate turn (' ' :: c₂.rest) [] c₂)
        (iterate turn' (' ' :: c₂.rest) [] c₂) := by
      refine iterate_alike (I := fun _ _ => True) (fun d c' h' _ => ?_) _ _ [] (.refl h₂.1) trivial
        (by simp) (by simp)
      exact ((hturn d c' h'.1 (B.since (h₂.trans h'))).since h').mono fun r c'' _ hr => hr.2
    refine (hiterate.since h₂).mono fun d c₃ _ hm => ?_
    have h1 := congrArg List.length hs.1
    have h2 := hm.1.length_le
    simp only [List.length_cons] at h1
    omega
  refine (peek_alike hE (.refl hc)).bind fun x c₁ h₁ hx => ?_
  obtain ⟨rfl, t, ht⟩ := hx
  simp only [parenEntries_eq, bracedEntries_eq]
  refine .ite (fun _ => ?_) (fun _ => .ite (fun _ => ?_) (fun _ => ?_))
  · exact hloop (fun d _ => parenTurn_alike d) ht
  · exact hloop (fun d _ => bracedTurn_alike d) ht
  · exact alike_throw h₁ (hE _ (by simp))

end Attribute

end Haml
