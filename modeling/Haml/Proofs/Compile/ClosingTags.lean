import Haml.Proofs.Compile.Failures
import Haml.Proofs.Reading.Queries
import Haml.Session

/-!
Closing tags that are written by hand. One is refused wherever the reading of a template reaches it,
be it in a block value: compilation then ends with the report of the tag, and it reports no other
line in this way. The name of a tag goes up to the first space, though, so a closing tag with
another blank directly after it is not refused.
-/
namespace Haml

variable {p : Profile} {t l : Text} {e : Failure}

/-! ## Names and first words -/

namespace Text

variable {s w : Text}

def SingleWord (w : Text) : Prop := w ≠ [] ∧ w.any isBlank = false

instance : DecidablePred SingleWord := fun _ => inferInstanceAs (Decidable (_ ∧ _))

theorem head?_splitWhen (cut : Char → Bool) (t : Text) :
    (splitWhen cut t).head? = some (t.takeWhile (! cut ·)) := by
  induction t with
  | nil => rfl
  | cons x t ih =>
    by_cases hx : cut x = true
    · simp [splitWhen, hx]
    · obtain ⟨ws, hws⟩ := List.head?_eq_some_iff.mp ih
      simp [splitWhen, hx, hws]

theorem head?_words {x : Char} (hx : isBlank x = false) (s : Text) :
    (words (x :: s)).head? = some ((x :: s).takeWhile (! isBlank ·)) := by
  obtain ⟨ws, hws⟩ := List.head?_eq_some_iff.mp (head?_splitWhen isBlank (x :: s))
  rw [words, hws, List.filter_cons_of_pos (by simp [hx])]
  rfl

/-- A run of characters ends before the first one that does not belong to it. -/
theorem takeWhile_append_stop {q : Char → Bool} (hw : ∀ x ∈ w, q x = true)
    (hs : ∀ x ∈ s.head?, q x = false) : (w ++ s).takeWhile q = w := by
  rw [List.takeWhile_append_of_pos hw]
  cases s with
  | nil => simp
  | cons x s => simp [hs x rfl]

theorem SingleWord.isBlank_eq_false (hw : SingleWord w) {x : Char} (hx : x ∈ w) :
    isBlank x = false := by
  simpa using List.any_eq_false.mp hw.2 x hx

theorem SingleWord.ne_space (hw : SingleWord w) {x : Char} (hx : x ∈ w) : x ≠ ' ' := by
  rintro rfl
  exact absurd (hw.isBlank_eq_false hx) (by decide)

/-- What stands before the first space is a given word if and only if that is the first word and a
space or nothing follows it. -/
theorem takeWhile_eq_word_iff (hw : SingleWord w) (hs : s.head?.any isBlank = false) :
    s.takeWhile (· != ' ') = w ↔
      (words s).head? = some w ∧ ∀ x ∈ (s.drop w.length).head?, x = ' ' := by
  cases s with
  | nil =>
    constructor
    · intro h
      exact absurd h.symm hw.1
    · intro h
      exact absurd h.1 (by simp [words, splitWhen])
  | cons y s =>
    rw [head?_words (by simpa using hs), Option.some.injEq]
    constructor
    · intro h
      have hsplit := List.takeWhile_append_dropWhile (p := (· != ' ')) (l := y :: s)
      have hrest : ∀ x ∈ ((y :: s).dropWhile (· != ' ')).head?, x = ' ' := by
        intro x hx
        have hnot := List.head?_dropWhile_not (· != ' ') (y :: s)
        rw [Option.mem_def.mp hx] at hnot
        simpa using hnot
      rw [h] at hsplit
      rw [← hsplit, List.drop_left]
      constructor
      · apply takeWhile_append_stop
        · intro x hx
          simp [hw.isBlank_eq_false hx]
        · intro x hx
          rw [hrest x hx]
          decide
      · exact hrest
    · rintro ⟨h, hrest⟩
      have hsplit := List.takeWhile_append_dropWhile (p := (! isBlank ·)) (l := y :: s)
      rw [h] at hsplit
      rw [← hsplit, List.drop_left] at hrest
      rw [← hsplit]
      apply takeWhile_append_stop
      · intro x hx
        simpa using hw.ne_space hx
      · intro x hx
        rw [hrest x hx]
        decide

end Text

theorem tagStatement_trimRight (l : Text) : tagStatement (Text.trimRight l) = tagStatement l := by
  unfold tagStatement
  induction l with
  | nil => rfl
  | cons x l ih =>
    by_cases hx : x = '-'
    · subst hx
      have hdash : Text.trimRight ('-' :: l) = '-' :: Text.trimRight l :=
        Text.trimRight_append (u := []) (by decide) l
      have hdrop (u : Text) : Text.dropChar '-' ('-' :: u) = Text.dropChar '-' u := rfl
      rw [hdash, hdrop, hdrop, ih]
    · have hkept : ∀ u : Text, u <+: x :: l → Text.dropChar '-' u = u := by
        intro u hu
        cases u with
        | nil => rfl
        | cons y u =>
          obtain rfl := (List.cons_prefix_cons.mp hu).1
          simp [Text.dropChar, hx]
      rw [hkept _ (Text.trimRight_initial _), hkept _ List.prefix_rfl, Text.trim_trimRight]

theorem tagName_trimRight (l : Text) : tagName (Text.trimRight l) = tagName l := by
  rw [tagName, tagStatement_trimRight, tagName]

/-! ## Tables of words -/

namespace Dictionary

def HasWords (d : Dictionary OptionValue TagKey) : Prop :=
  ∀ entry ∈ d, ∃ w, entry.2 = .text w ∧ w.SingleWord

variable {d new : Dictionary OptionValue TagKey}

theorem HasWords.update (h : HasWords d) (hnew : HasWords new) : HasWords (d.update new) := by
  intro entry hentry
  rcases mem_update hentry with hold | hadded
  · exact h entry hold
  · exact hnew entry hadded

end Dictionary

namespace Tags

def HasWords (tags : Tags) : Prop := tags.closings.HasWords

theorem HasWords.singleWord {tags : Tags} {w : Text} (h : tags.HasWords)
    (hw : tags.isClosing w = true) : w.SingleWord := by
  obtain ⟨entry, hentry, htext⟩ := List.any_eq_true.mp hw
  obtain ⟨v, hv, hword⟩ := h entry hentry
  rw [hv] at htext
  obtain rfl : v = w := beq_iff_eq.mp htext
  exact hword

end Tags

namespace Dialect

theorem hasWords_closingRows {rows : List (String × String)}
    (h : rows.all (fun r => decide (Text.SingleWord r.2.toList)) = true) :
    (closingRows rows).HasWords := by
  intro entry hentry
  obtain ⟨r, hr, rfl⟩ := List.mem_map.mp hentry
  exact ⟨_, rfl, of_decide_eq_true (List.all_eq_true.mp h r hr)⟩

theorem hasWords_tags (d : Dialect) : d.tags.HasWords := by
  cases d with
  | django => exact hasWords_closingRows (by decide)
  | jinja => exact hasWords_closingRows (by decide)

end Dialect

/-- A compiler made on its own has words for closing tags, if the ones of its own are words. -/
theorem hasWords_profileOf {given : List (Text × OptionValue)} (h : profileOf given = .ok p)
    (hnew : ∀ c, Compiler.ofList given = .ok c → Dictionary.HasWords c.options.closings.1) :
    p.tags.HasWords := by
  have hmap : (Compiler.made given).map (·.profile (Shared.adopt {} given)) = .ok p := h
  cases hmade : Compiler.made given with
  | error e =>
    rw [hmade] at hmap
    cases hmap
  | ok c =>
    obtain ⟨c', hc, hchecked⟩ := bind_eq_ok hmade
    obtain rfl : c' = c := by
      split at hchecked
      · cases hchecked
      · exact Except.ok.inj hchecked
    have htable : (Shared.addClosings {} c'.dialect c'.options.closings.1).table c'.dialect =
        c'.dialect.tags.closings.update c'.options.closings.1 := by
      cases c'.dialect <;> rfl
    rw [hmade, Shared.adopt, hc] at hmap
    obtain rfl := Except.ok.inj hmap
    have hwords := (Dialect.hasWords_tags c'.dialect).update (hnew c' hc)
    rwa [← htable] at hwords

/-! ## Lines that are refused -/

/-- A dash is no mark of an inline variable. -/
theorem InlineVariable.start?_dash (b : Bool) (u : Text) : start? b ('-' :: u) = none := by
  unfold start?
  split
  · next heq =>
    cases heq
    simp [isMark]
  · rfl

namespace Node

def IsTagLine (l : Text) : Prop := ∃ u, l = '-' :: u ∧ u.head? ≠ some '#'

/-- A line is refused if it is a tag line whose name closes a block. -/
theorem ofLine_eq_error_iff : ofLine p l = .error e ↔
    IsTagLine l ∧ p.tags.isClosing (tagName l) = true ∧
      e = .rejected (.closingTag (tagName l)) none := by
  rw [← tagName_trimRight l]
  constructor
  · intro h
    unfold ofLine at h
    dsimp only at h
    split at h
    · cases h
    · split at h
      any_goals cases h
      next hcomment _ =>
        split at h
        · cases h
          refine ⟨⟨_, rfl, ?_⟩, by assumption, rfl⟩
          intro hhash
          obtain ⟨u, rfl⟩ := List.head?_eq_some_iff.mp hhash
          exact hcomment _ rfl
        · cases h
  · rintro ⟨⟨u, rfl, hu⟩, hclosing, rfl⟩
    have hstart := InlineVariable.start?_dash p.inlineEquals u
    cases u with
    | nil => simp [ofLine, hstart, hclosing]
    | cons y u =>
      have hy : y ≠ '#' := by simpa using hu
      simp [ofLine, hstart, hclosing, hy]

end Node

/-! ## The line ahead -/

theorem Reader.LineRead.eq_takeWhile {c₁ c₂ : Cursor} (h : Reader.LineRead c₁ l c₂) :
    l = c₁.rest.takeWhile (· != '\n') := by
  obtain ⟨hbreak, hrest⟩ := h
  have hall : ∀ x ∈ l, (x != '\n') = true := by
    intro x hx
    have hne : x ≠ '\n' := by
      rintro rfl
      exact hbreak hx
    simpa using hne
  rcases hrest with hrest | ⟨hrest, -⟩
  · rw [hrest, Text.takeWhile_append_stop hall (by simp)]
  · rw [hrest, List.takeWhile_eq_self_iff.mpr hall]

namespace Node

open Reader

variable {block : Compilers} {c c₁ : Cursor}

/-- A text from its first line that is not blank on, without the indentation of that line. -/
def fromLine (t : Text) : Text := t.dropWhile fun x => Text.isIndent x || x == '\n'

def firstLine (t : Text) : Text := (fromLine t).takeWhile (· != '\n')

theorem fromLine_append {b : Text} (hb : ∀ x ∈ b, Text.isIndent x = true) (t : Text) :
    fromLine (b ++ t) = fromLine t :=
  List.dropWhile_append_of_pos fun x hx => by simp [hb x hx]

theorem fromLine_eq_self {t : Text} (ht : t.head?.any Text.isIndent = false)
    (hbreak : t.head? ≠ some '\n') : fromLine t = t := by
  cases t with
  | nil => rfl
  | cons x t =>
    have hx : Text.isIndent x = false := by simpa using ht
    have hne : x ≠ '\n' := by simpa using hbreak
    simp [fromLine, hx, hne]

/-- A turn passes over a blank line, or it stops at the first character of a line. -/
theorem blankTurn_fromLine {E : Failure → Prop} (n : Nat) (h₁ : c.Moves c₁) :
    Alike c E (Turned (fun _ c₂ => fromLine c₂.rest = fromLine c₁.rest)
        (fun _ c₂ => c₂.rest = fromLine c₁.rest) c₁)
      (blankTurn n c₁) (blankTurn n c₁) := by
  refine (indentation_alike h₁).bind fun b c₂ h₂ hb => ?_
  obtain ⟨rfl, hrest⟩ := hb
  have hfrom : fromLine c₁.rest = fromLine c₂.rest := by
    conv_lhs => rw [hrest]
    exact fromLine_append (List.all_eq_true.mp List.all_takeWhile) _
  have hhead : c₂.rest.head?.any Text.isIndent = false := by
    have hsplit := List.takeWhile_append_dropWhile (p := Text.isIndent) (l := c₁.rest)
    rw [List.append_cancel_left (hrest.symm.trans hsplit.symm)]
    have hnot := List.head?_dropWhile_not Text.isIndent c₁.rest
    cases h : (c₁.rest.dropWhile Text.isIndent).head? with
    | none => rfl
    | some x => simpa [h] using hnot
  refine (accept_alike '\n' h₂).bind fun b c₃ h₃ hb => ?_
  rcases hb with ⟨rfl, hr⟩ | ⟨rfl, rfl, hbreak⟩
  · refine alike_pure h₃ ⟨?_, ?_⟩
    · have := length_le_of_append hrest
      simp only [hr, List.length_cons] at this
      omega
    · rw [hfrom, hr]
      rfl
  · apply alike_pure h₃
    rw [hfrom, fromLine_eq_self hhead hbreak]
    rfl

/-- Passing over blank lines leads to the first line that is not blank. -/
theorem blankLines_fromLine (hc : c.Within) :
    ∃ r c₁, (allowance >>= fun steps => blankLines steps 0) c = .ok r c₁ ∧ c.Moves c₁ ∧
      c₁.rest = fromLine c.rest := by
  apply Alike.exists_ok
  refine (allowance_alike (.refl hc)).bind fun steps c₁ h₁ ha => ?_
  obtain ⟨rfl, rfl⟩ := ha
  rw [blankLines_eq]
  refine iterate_alike (I := fun _ c₂ => fromLine c₂.rest = fromLine c₁.rest)
    (fun n c₂ h₂ hfrom => ?_) _ (' ' :: c₁.rest) 0 h₁ rfl (by simp) (by simp)
  refine (blankTurn_fromLine n h₂).mono fun r c₃ _ hr => ?_
  cases r with
  | inl m => exact ⟨hr.1, hr.2.trans hfrom⟩
  | inr r => exact hr.trans hfrom

/-- The first character and the line of a node say what is read. -/
theorem exists_node_eq {x : Char} {u : Text} (indent : Text) (hc : c.Within)
    (hx : c.rest = x :: u) : ∃ c', ∀ block, node p block indent c =
      if x = ':' then filterNode indent c
      else if startsElement c then
        (do return { indent := indent, content := .element (← Element.element p.settings block) } :
          Reader Node) c
      else match ofLine p (c.rest.takeWhile (· != '\n')) with
        | .ok content => .ok { indent := indent, content := content } c'
        | .error e => .error e c' := by
  obtain ⟨l, c', hline, -, hread⟩ := (line_alike (.refl hc)).exists_ok
  refine ⟨c', fun block => ?_⟩
  have hpeek : peek c = .ok x c := by
    obtain ⟨before, rest, rfl⟩ := Cursor.exists_eq_of_within hc
    obtain rfl : rest = x :: u := hx
    rfl
  have hget : (get : Reader Cursor) c = .ok c c := rfl
  rw [node, bind_of_ok hpeek, ← hread.eq_takeWhile]
  split
  · rfl
  · rw [bind_of_ok hget]
    split
    · rfl
    · rw [bind_of_ok hline]
      cases ofLine p l with
      | ok content => rfl
      | error e => rfl

/-- Besides what the compiler of block values says, a node is refused for its line only. -/
theorem queries_node (indent : Text) (hc : c.Within) :
    Queries (fun e => ¬ e.IsClosingTag ∨ ofLine p (c.rest.takeWhile (· != '\n')) = .error e)
      fun block => node p block indent c := by
  cases hr : c.rest with
  | nil =>
    obtain ⟨before, rest, rfl⟩ := Cursor.exists_eq_of_within hc
    obtain rfl : rest = [] := hr
    exact .error (.inl not_false) _
  | cons x u =>
    obtain ⟨c', heq⟩ := exists_node_eq (p := p) indent hc hr
    rw [hr] at heq
    simp only [heq]
    split
    · exact (asking_filterNode indent c).mono fun _ h => .inl h
    · split
      · exact ((Element.asking_element c).mono fun _ h => .inl h).bind fun e c => .ok _ c
      · cases hline : ofLine p ((x :: u).takeWhile (· != '\n')) with
        | ok content => exact .ok _ _
        | error e => exact .error (.inr rfl) _

/-- The next node is read from the first line that is not blank, if there is one. -/
theorem exists_next_eq (hc : c.Within) : ∃ blanks indent c₁,
    c.Moves c₁ ∧ c₁.rest = fromLine c.rest ∧ ∀ block, next p block c =
      if c₁.rest = [] then .ok (blanks, none) c₁
      else (do return (blanks, some (← node p block indent)) : Reader (Nat × Option Node)) c₁ := by
  obtain ⟨⟨blanks, indent⟩, c₁, hblanks, hmoves, hrest⟩ := blankLines_fromLine hc
  refine ⟨blanks, indent, c₁, hmoves, hrest, fun block => ?_⟩
  have hend : atEnd c₁ = .ok c₁.atEnd c₁ := rfl
  have hiff : c₁.atEnd = true ↔ c₁.rest = [] := by simp [Cursor.atEnd, hmoves.1.2]
  rw [next, ← bind_assoc, bind_of_ok hblanks]
  dsimp only
  rw [bind_of_ok hend]
  simp only [hiff]
  split <;> rfl

theorem queries_next (hc : c.Within) :
    Queries (fun e => ¬ e.IsClosingTag ∨ ofLine p (firstLine c.rest) = .error e)
      fun block => next p block c := by
  obtain ⟨blanks, indent, c₁, hmoves, hrest, heq⟩ := exists_next_eq (p := p) hc
  simp only [heq]
  split
  · exact .ok _ _
  · rw [firstLine, ← hrest]
    exact (queries_node indent hmoves.1).bind fun n c => .ok _ c

/-- A line that is refused is refused when the next node is read from it. -/
theorem next_of_ofLine_error (hc : c.Within) (h : ofLine p (firstLine c.rest) = .error e)
    (block : Compilers) : ∃ c', next p block c = .error e c' := by
  obtain ⟨blanks, indent, c₁, hmoves, hrest, heq⟩ := exists_next_eq (p := p) hc
  rw [firstLine, ← hrest] at h
  obtain ⟨u, hu, -⟩ := (ofLine_eq_error_iff.mp h).1
  cases hr : c₁.rest with
  | nil => simp [hr] at hu
  | cons x v =>
    -- the line starts with a dash, so neither a filter nor an element is ahead
    obtain rfl : x = '-' := by
      rw [hr, List.takeWhile_cons] at hu
      split at hu
      · exact (List.cons_eq_cons.mp hu).1
      · cases hu
    have helement : startsElement c₁ = false := by
      simp [startsElement, Cursor.ahead, hmoves.1.2, hr]
    obtain ⟨c', hnode⟩ := exists_node_eq (p := p) indent hmoves.1 hr
    refine ⟨c', ?_⟩
    rw [heq, if_neg (by simp [hr]), bind_eq_goOn, hnode, if_neg (by decide),
      if_neg (by simp [helement]), h]
    rfl

theorem nodeTurn_eq_error_iff {read : List Node} {c' : Cursor} :
    nodeTurn p block read c = .error e c' ↔ next p block c = .error e c' := by
  rw [nodeTurn, bind_eq_goOn]
  cases h : next p block c with
  | error e c₁ => simp [goOn]
  | ok r c₁ =>
    obtain ⟨blanks, found⟩ := r
    cases found with
    | none => simp [goOn, pure, EStateM.pure]
    | some n => simp [goOn, pure, EStateM.pure]

end Node

/-! ## Writing reports no closing tag -/

theorem Content.not_isClosingTag_faces {indent breaks : Text} {content : Content}
    {hasChildren : Bool} (horigin : Node.Origin p content)
    (h : content.faces p indent breaks hasChildren = .error e) : ¬ e.IsClosingTag := by
  rcases faces_error h with
    ⟨element, rfl, hrender⟩ | ⟨line, rfl, -, rfl⟩ | ⟨name, body, rfl, hfilter⟩
  · obtain ⟨rfl, -⟩ := Element.renderAttributes_error horigin.formed hrender
    exact not_false
  · exact not_false
  · rcases hfilter with rfl | ⟨f, -, happly⟩
    · exact not_false
    · rcases Filter.apply_error happly with ⟨fault, hfault, rfl⟩ | ⟨-, rfl | rfl⟩
      · simp only [List.mem_cons, List.not_mem_nil, or_false] at hfault
        rcases hfault with rfl | rfl | rfl <;> exact not_false
      · exact not_false
      · exact not_false

theorem not_isClosingTag_finish {nodes : List Node} (hnodes : ∀ n ∈ nodes, Node.Read p n)
    (h : finish p (Forest.ofNodes p.tags nodes) = .error e) : ¬ e.IsClosingTag := by
  unfold finish at h
  split at h
  · cases h
  · obtain ⟨n, hn, hasChildren, hfaces⟩ := Forest.write_error (render_error h)
    rw [Forest.toList_ofNodes] at hn
    exact Content.not_isClosingTag_faces (hnodes n hn).content hfaces

/-! ## The lines that a reading reaches -/

section

open Reader Node

variable {read : List Node} {c c' : Cursor} {u : Text}

/-- A node that cannot be read ends the compilation. -/
theorem compile_eq_error_of_reached
    (h : Reached (nodeTurn p (compile p)) [] (.ofText t) read c)
    (hnext : next p (compile p) c = .error e c') : compile p t = .error e := by
  have hread : readNodes p (compile p) t = .error e := by
    have hall : iterate (nodeTurn p (compile p)) (' ' :: t) [] (.ofText t) = .error e c' :=
      h.iterate_error ((progress p (compile p)).nodes []).advances (Cursor.within_ofText t)
        (by simp [Cursor.ofText]) (nodeTurn_eq_error_iff.mpr hnext)
    rw [readNodes, all_eq, hall]
  rw [compile_eq, parse, hread]
  rfl

/-- A report of a closing tag comes from the reading of some node. -/
theorem exists_reached_of_compile (he : e.IsClosingTag) (h : compile p t = .error e) :
    ∃ read c c', Reached (nodeTurn p (compile p)) [] (.ofText t) read c ∧
      next p (compile p) c = .error e c' := by
  have hkinds := (readNodes_alike (t := t) (.refl p) (.self _ (compile p))).2
  rw [compile_eq, parse, bind_assoc] at h
  cases hr : readNodes p (compile p) t with
  | ok nodes =>
    rw [hr] at h hkinds
    exact absurd he (not_isClosingTag_finish hkinds h)
  | error e' =>
    rw [hr] at h
    cases h
    rw [readNodes, all_eq] at hr
    split at hr
    · cases hr
    · next e₁ c₁ hall =>
      cases hr
      rcases exists_reached_of_iterate_error hall with rfl | ⟨read, c, hreached, hturn⟩
      · exact absurd he not_false
      · exact ⟨read, c, c₁, hreached, nodeTurn_eq_error_iff.mp hturn⟩

/-- The reading of the text `t` reaches the line `l`: in `t` itself, or in a block value of one of
its nodes. The block values of a node are the texts such that its reading depends on how they are
compiled. -/
inductive Reaches (p : Profile) : Text → Text → Prop
  | line {t : Text} {read : List Node} {c : Cursor}
      (h : Reached (nodeTurn p (compile p)) [] (.ofText t) read c) : Reaches p t (firstLine c.rest)
  | block {t u l : Text} {read : List Node} {c : Cursor}
      (h : Reached (nodeTurn p (compile p)) [] (.ofText t) read c)
      (hu : DependsOn (fun block => next p block c) (compile p) u) (hl : Reaches p u l) :
      Reaches p t l

theorem moves_of_reached (h : Reached (nodeTurn p (compile p)) [] (.ofText t) read c) :
    (Cursor.ofText t).Moves c :=
  h.moves ((progress p (compile p)).nodes []).advances (Cursor.within_ofText t)

/-- A line that is refused ends the compilation of every text whose reading reaches it. -/
theorem Reaches.compile_eq_error (h : Reaches p t l) (hl : ofLine p l = .error e) :
    compile p t = .error e := by
  induction h with
  | line h =>
    obtain ⟨c', hnext⟩ := next_of_ofLine_error (moves_of_reached h).1 hl (compile p)
    exact compile_eq_error_of_reached h hnext
  | block h hu _ ih =>
    -- the block value fails with the report, and the node that depends on it fails with the same
    obtain ⟨c', hnext⟩ := (queries_next (moves_of_reached h).1).error_of_dependsOn hu (ih hl)
    exact compile_eq_error_of_reached h hnext

/-- The block values of a text are shorter than it. -/
theorem length_lt_of_dependsOn (h : (Cursor.ofText t).Moves c)
    (hu : DependsOn (fun block => next p block c) (compile p) u) : u.length < t.length := by
  -- the reading does not ask for texts that are not shorter
  by_contra hlong
  obtain ⟨v, hv⟩ := hu
  have htext : c.text = t := h.text_eq.trans (by simp [Cursor.text, Cursor.ofText])
  have hagree : ∀ w : Text, w.length < c.text.length →
      Function.update (compile p) u v w = compile p w := by
    intro w hw
    have hne : w ≠ u := by
      rintro rfl
      rw [htext] at hw
      exact hlong hw
    exact Function.update_of_ne hne v (compile p)
  exact hv (next_alike (E := fun _ => True) (.refl p) h.1
    ⟨fun _ _ => trivial, hagree, fun _ _ _ _ => trivial⟩).1

/-- A report of a closing tag is about a line that the reading reaches. -/
theorem exists_reaches_of_compile (he : e.IsClosingTag) (h : compile p t = .error e) :
    ∃ l, Reaches p t l ∧ ofLine p l = .error e := by
  -- a block value is shorter than the text that it stands in
  induction hn : t.length using Nat.strongRecOn generalizing t with
  | ind n ih =>
    obtain ⟨read, c, c', hreached, hnext⟩ := exists_reached_of_compile he h
    have hmoves := moves_of_reached hreached
    rcases (queries_next hmoves.1).exists_dependsOn hnext with (hnot | hline) | ⟨u, hfail, hu⟩
    · exact absurd he hnot
    · exact ⟨_, .line hreached, hline⟩
    · have hlt := length_lt_of_dependsOn hmoves hu
      obtain ⟨l, hl, hline⟩ := ih u.length (by omega) hfail rfl
      exact ⟨l, .block hreached hu hl, hline⟩

end

/-- With words for closing tags, compilation reports one if and only if the reading of the template
reaches a tag line that has it for its first word, with a space after it if anything. -/
theorem compile_closingTag_iff (hp : p.tags.HasWords) {w : Text} {near : Option Text} :
    compile p t = .error (.rejected (.closingTag w) near) ↔
      near = none ∧ p.tags.isClosing w = true ∧
      ∃ l, Reaches p t l ∧ Node.IsTagLine l ∧ (Text.words (tagStatement l)).head? = some w ∧
        ∀ x ∈ ((tagStatement l).drop w.length).head?, x = ' ' := by
  have hhead (l : Text) : (tagStatement l).head?.any Text.isBlank = false := by
    cases hs : tagStatement l with
    | nil => rfl
    | cons x s => simpa using Text.isBlank_of_trim hs
  constructor
  · intro h
    obtain ⟨l, hreaches, hline⟩ :=
      exists_reaches_of_compile (e := .rejected (.closingTag w) near) trivial h
    obtain ⟨htag, hclosing, heq⟩ := Node.ofLine_eq_error_iff.mp hline
    cases heq
    have hword := (Text.takeWhile_eq_word_iff (hp.singleWord hclosing) (hhead l)).mp rfl
    exact ⟨rfl, hclosing, l, hreaches, htag, hword⟩
  · rintro ⟨rfl, hclosing, l, hreaches, htag, hword⟩
    have hname : tagName l = w :=
      (Text.takeWhile_eq_word_iff (hp.singleWord hclosing) (hhead l)).mpr hword
    apply hreaches.compile_eq_error
    rw [Node.ofLine_eq_error_iff, hname]
    exact ⟨htag, hclosing, rfl⟩

/-- A closing tag that was added to a table, in a block value. -/
theorem compile_closingTag_iff_nested : ∃ p,
    profileOf [("tag_config".toList, .text "jinja2".toList),
      ("custom_self_closing_tags".toList, .table [("set".toList, .text "endset".toList)])] = .ok p ∧
    compile p "%a(b=\n  -- endset  x\n)".toList =
      .error (.rejected (.closingTag "endset".toList) none) := by
  have hprofile : profileOf [("tag_config".toList, .text "jinja2".toList),
      ("custom_self_closing_tags".toList, .table [("set".toList, .text "endset".toList)])] =
      .ok { tags := { closings := (Dialect.tags .jinja).closings.update
                        [(.text "set".toList, .text "endset".toList)]
                      inner := (Dialect.tags .jinja).inner } } := rfl
  refine ⟨_, hprofile, (compile_closingTag_iff (hasWords_profileOf hprofile ?_)).mpr ?_⟩
  · rintro c ⟨⟩
    show Dictionary.HasWords (Dialect.closingRows [("set", "endset")])
    exact Dialect.hasWords_closingRows (by decide)
  · refine ⟨rfl, by decide, "-- endset  x".toList, ?_, ⟨_, rfl, by decide⟩, by decide, ?_⟩
    · refine .block (u := "  -- endset  x".toList) .start ?_ (.line .start)
      exact Reader.dependsOn_of_ok (v := .ok []) rfl rfl
    · intro x hx
      exact (Option.some.inj hx).symm

/-- A tab after the first word makes it a part of the name, so the line is not refused. -/
theorem tab_not_refused :
    Reaches {} "-endif\tx".toList "-endif\tx".toList ∧
    Node.IsTagLine "-endif\tx".toList ∧
    (Text.words (tagStatement "-endif\tx".toList)).head? = some "endif".toList ∧
    ({} : Profile).tags.isClosing "endif".toList = true ∧
    compile {} "-endif\tx".toList = .ok "\x7b% endif\tx %\x7d\n".toList := by
  refine ⟨.line .start, ⟨_, rfl, by decide⟩, by decide, by decide, ?_⟩
  decide +kernel

end Haml
