import Haml.Proofs.Reading.Singles
import Mathlib.Data.List.Forall2

/-!
Dictionaries that are broken over lines. A dictionary stays the same if line breaks take the place
of the spaces between its attributes. There is one exception: in parentheses, an attribute without a
value must not be the last one in its line.
-/
namespace Haml.Attribute

open Reader

namespace Style

def comma : Style → Text
  | parens => []
  | braces => [',']

/-- What is read after an attribute and the blanks that follow it, where the character is ahead. -/
def separate : Style → Attributes → Char → Reader (Attributes ⊕ Attributes)
  | parens, d, x => do
    if x = ',' then Reader.reject (.unexpected ',')
    return .inl d
  | braces, d, x => do
    if x ≠ '\x7d' ∧ x ≠ '\n' then
      let _ ← Reader.symbol [[',']]
    return .inl d

def turn (s : Settings) (block : Text → Except Failure Text) (k : Style) :
    Attributes → Reader (Attributes ⊕ Attributes) :=
  recordTurn (k.entry s block) k.closing k.separate

end Style

variable {s : Settings} {block : Text → Except Failure Text} {k : Style} {d : Attributes}
  {a t u p rest : Text} {e : Text × Value} {x y : Char}

theorem dictionary_opening (k : Style) (p t : Text) :
    dictionary s block ⟨p, k.opening :: t, 0, 0⟩ =
      iterate (k.turn s block) (' ' :: t) [] ⟨k.opening :: p, t, 0, 0⟩ := by
  cases k with
  | parens =>
    have hturn : Style.parens.turn s block = parenTurn s block := rfl
    rw [hturn, ← funext (parenEntries_eq s block (' ' :: t))]
    rfl
  | braces =>
    have hturn : Style.braces.turn s block = bracedTurn s block := rfl
    rw [hturn, ← funext (bracedEntries_eq s block (' ' :: t))]
    rfl

/-! ## One turn of the loop -/

/-- What can follow an attribute: the first text is passed over before the next turn, and the second
one comes after it. -/
inductive Parted : Style → Text → Text → Text → Prop
  | closing (k : Style) (a rest : Text) : Parted k a [] (k.closing :: rest)
  | comma (a rest : Text) : Parted .braces a [','] rest
  | space (a : Text) {x : Char} (hx : x ∉ borders) (rest : Text) :
      Parted .parens a [' '] (x :: rest)
  | line {a : Text} (ha : '=' ∈ a) (rest : Text) : Parted .parens a [] ('\n' :: rest)

/-- A key in parentheses without a value, and the blanks after it. -/
theorem parenEntry_bare {b : Text} (hne : a ≠ [])
    (ha : ∀ x ∈ a, (Text.isWord x || isKeyMark x) = true) (hb : Blanks b)
    (hy : (b ++ x :: rest).head? = some y) (hend : y ∈ keyEnds) (hx : Text.isIndent x = false)
    (hsign : x ≠ '=') :
    Reads (parenEntry s block) (a ++ b) (a, .one (.flag true)) (x :: rest) := by
  have hword : Reads (word isKeyMark) a a (b ++ x :: rest) := by
    apply reads_word hne ha
    intro z hz
    rw [hy] at hz
    cases hz
    have hall : ∀ z ∈ keyEnds, (Text.isWord z || isKeyMark z) = false :=
      List.all_iff_forall_prop.mp (by decide)
    exact hall y hend
  refine hword.bind ((reads_peek hy).look (.ite_neg (keyEnd_of_mem hend) ?_))
  refine Reads.last (reads_blanks hb ?_) ?_
  · simp [hx]
  · exact (reads_peek rfl).look (.ite_neg hsign (reads_pure _ _))

/-- What is read after an attribute in parentheses. -/
theorem reads_separate_parens {b : Text} (hb : Blanks b) (hx : Text.isIndent x = false)
    (hcomma : x ≠ ',') (d : Attributes) :
    Reads (do let _ ← Reader.indentation; Style.parens.separate d (← Reader.peek)) b (.inl d)
      (x :: rest) := by
  refine Reads.last (reads_blanks hb ?_) ?_
  · simp [hx]
  · exact (reads_peek rfl).look (.ite_neg hcomma (reads_pure _ _))

/-- What is read after an attribute in braces: nothing before the closing brace, else a comma. -/
theorem reads_separate_brace (d : Attributes) (rest : Text) :
    Reads (do let _ ← Reader.indentation; Style.braces.separate d (← Reader.peek)) [] (.inl d)
      ('\x7d' :: rest) := by
  have hseparate : Reads (Style.braces.separate d '\x7d') [] (.inl d) ('\x7d' :: rest) :=
    reads_pure _ _
  exact (reads_blanks blanks_nil (by simp [Text.isIndent])).look ((reads_peek rfl).look hseparate)

theorem reads_separate_comma (d : Attributes) (rest : Text) :
    Reads (do let _ ← Reader.indentation; Style.braces.separate d (← Reader.peek)) [','] (.inl d)
      rest := by
  have hseparate : Reads (Style.braces.separate d ',') [','] (.inl d) rest :=
    (reads_symbol [','] rest).last (reads_pure _ _)
  exact (reads_blanks blanks_nil (by simp [Text.isIndent])).look ((reads_peek rfl).look hseparate)

theorem blanks_space : Blanks [' '] := by simp [Blanks, Text.isIndent]

/-- An attribute before what can follow it. In parentheses, if it has no value, the space after it
is passed over together with it. -/
theorem Single.entry {o : Text} (h : Single s k a e) (ho : Parted k a o rest) (block : Compilers) :
    ∃ o₁ o₂, o = o₁ ++ o₂ ∧ Reads (k.entry s block) (a ++ o₁) e (o₂ ++ rest) ∧
      ∀ d, Reads (do let _ ← Reader.indentation; k.separate d (← Reader.peek)) o₂ (.inl d)
        rest := by
  cases k with
  | braces =>
    have hentry (y : Char) (hy : y = ',' ∨ y = '\x7d') (rest : Text) :
        Reads (bracedEntry s block) (a ++ []) e (y :: rest) := by
      rw [List.append_nil]
      exact reads_of_noBlock asking_bracedEntry (h.braces.2 y hy rest) block
    cases ho with
    | closing => exact ⟨[], [], rfl, hentry _ (.inr rfl) _, fun d => reads_separate_brace d _⟩
    | comma => exact ⟨[], [','], rfl, hentry _ (.inl rfl) _, fun d => reads_separate_comma d _⟩
  | parens =>
    obtain ⟨⟨z, hz, -⟩, hcases⟩ := h.parens
    have hne : a ≠ [] := ne_nil_of_head? hz
    obtain ⟨hsign, rfl, hletters⟩ | ⟨-, hvalued⟩ := hcases
    · cases ho with
      | closing =>
        refine ⟨[], [], rfl, ?_, fun d => ?_⟩
        · exact parenEntry_bare hne hletters blanks_nil rfl (by decide) (by decide) (by decide)
        · exact reads_separate_parens blanks_nil (by decide) (by decide) d
      | space a hx rest =>
        obtain ⟨hindent, -, hequals, hcomma⟩ := not_border_spec hx
        refine ⟨[' '], [], rfl, ?_, fun d => reads_separate_parens blanks_nil hindent hcomma d⟩
        exact parenEntry_bare hne hletters blanks_space rfl (by decide) hindent hequals
      | line ha rest => exact absurd ha hsign
    · have hentry (y : Char) (hy : y ∈ borders) (rest : Text) :
          Reads (parenEntry s block) (a ++ []) e (y :: rest) := by
        rw [List.append_nil]
        exact reads_of_noBlock asking_parenEntry (hvalued y hy rest) block
      cases ho with
      | closing =>
        refine ⟨[], [], rfl, hentry _ (Style.closing_mem .parens) _, fun d => ?_⟩
        exact reads_separate_parens blanks_nil (by decide) (by decide) d
      | space a hx rest =>
        obtain ⟨hindent, -, -, hcomma⟩ := not_border_spec hx
        refine ⟨[], [' '], rfl, hentry _ (by decide) _, fun d => ?_⟩
        exact reads_separate_parens blanks_space hindent hcomma d
      | line ha rest =>
        refine ⟨[], [], rfl, hentry _ (by decide) _, fun d => ?_⟩
        exact reads_separate_parens blanks_nil (by decide) (by decide) d

/-- Characters that can stand before an attribute. -/
def Gaps (g : Text) : Prop := ∀ x ∈ g, Text.isGap x = true

/-- Where an attribute is ahead, a turn passes over what stands before it and reads it. -/
theorem turn_start {g : Text} (hg : Gaps g) (hx : u.head? = some x) (hborder : x ∉ borders)
    (p : Text) :
    k.turn s block d ⟨p, g ++ u, 0, 0⟩ = (do
      let d ← record d (← k.entry s block)
      let _ ← Reader.indentation
      k.separate d (← Reader.peek)) ⟨g.reverse ++ p, u, 0, 0⟩ := by
  have hclosing : x ≠ k.closing := by
    rintro rfl
    exact hborder k.closing_mem
  have hgap : Reads gap g g u := by
    apply reads_takeWhile hg
    intro y hy
    rw [hx] at hy
    cases hy
    exact (not_border_spec hborder).2.1
  have hend : atEnd ⟨g.reverse ++ p, u, 0, 0⟩ = .ok false ⟨g.reverse ++ p, u, 0, 0⟩ :=
    reads_atEnd (ne_nil_of_head? hx) _
  have hpeek : peek ⟨g.reverse ++ p, u, 0, 0⟩ = .ok x ⟨g.reverse ++ p, u, 0, 0⟩ :=
    reads_peek hx _
  rw [Style.turn, recordTurn, bind_of_ok (hgap p), bind_of_ok hend, if_neg (by simp)]
  dsimp only
  rw [bind_of_ok hpeek, if_neg hclosing]

theorem reads_turn (block : Compilers) {g o : Text} (hg : Gaps g) (h : Single s k a e)
    (ho : Parted k a o rest) (hd : e.1 ∉ d.keys) :
    Reads (k.turn s block d) (g ++ (a ++ o)) (.inl (d ++ [e])) rest := by
  obtain ⟨x, hx, hborder⟩ := h.exists_head
  obtain ⟨o₁, o₂, rfl, hentry, hseparate⟩ := h.entry ho block
  have hx' : (a ++ (o₁ ++ o₂) ++ rest).head? = some x := by
    rw [List.append_assoc, List.head?_append, hx]
    rfl
  have hthen : Reads (do
      let d ← record d (← k.entry s block)
      let _ ← Reader.indentation
      k.separate d (← Reader.peek)) (a ++ o₁ ++ o₂) (.inl (d ++ [e])) rest :=
    hentry.bind ((reads_record e.2 hd).look (hseparate (d ++ [e])))
  rw [← List.append_assoc a] at hx' ⊢
  intro p
  rw [List.append_assoc, turn_start hg hx' hborder, hthen]
  simp

def Refuses {α : Type} (r : Reader α) (fault : Fault) (u : Text) : Prop :=
  ∀ p, ∃ near c, r ⟨p, u, 0, 0⟩ = .error (.rejected fault near) c

section Refuses

variable {α β : Type} {r : Reader α} {f : α → Reader β} {fault : Fault} {v : α}

theorem Refuses.bind (h : Refuses r fault u) : Refuses (r >>= f) fault u := by
  intro p
  obtain ⟨near, c, hr⟩ := h p
  exact ⟨near, c, by simp only [Bind.bind, EStateM.bind, hr]⟩

theorem Refuses.after (hr : Reads r t v u) (h : Refuses (f v) fault u) :
    Refuses (r >>= f) fault (t ++ u) := by
  intro p
  rw [bind_of_ok (hr p)]
  exact h (t.reverse ++ p)

theorem refuses_reject : Refuses (reject fault : Reader α) fault u :=
  fun _ => ⟨_, _, rfl⟩

end Refuses

/-- A key that is there already is refused. -/
theorem turn_duplicate (block : Compilers) {g o : Text} (hg : Gaps g) (h : Single s k a e)
    (ho : Parted k a o rest) (hd : e.1 ∈ d.keys) :
    Refuses (k.turn s block d) (.duplicate e.1) (g ++ (a ++ o ++ rest)) := by
  obtain ⟨x, hx, hborder⟩ := h.exists_head
  obtain ⟨o₁, o₂, rfl, hentry, -⟩ := h.entry ho block
  have hx' : (a ++ (o₁ ++ o₂) ++ rest).head? = some x := by
    rw [List.append_assoc, List.head?_append, hx]
    rfl
  have hcontains : d.contains e.1 = true := by
    obtain ⟨e', he', hkey⟩ := List.mem_map.mp hd
    exact List.any_eq_true.mpr ⟨e', he', by simp [hkey]⟩
  have hrecord : Refuses (record d e) (.duplicate e.1) (o₂ ++ rest) := by
    rw [record, if_pos hcontains]
    exact refuses_reject.bind
  intro p
  rw [turn_start hg hx' hborder, List.append_assoc a, List.append_assoc, ← List.append_assoc a]
  exact Refuses.after hentry hrecord.bind (g.reverse ++ p)

/-- An attribute in parentheses without a value is refused before a line break. -/
theorem turn_broken {g : Text} (hg : Gaps g) (h : Single s .parens a e) (hsign : '=' ∉ a)
    (rest : Text) :
    Refuses (Style.parens.turn s block d) (.unexpected '\n') (g ++ (a ++ '\n' :: rest)) := by
  obtain ⟨⟨x, hx, hborder⟩, ⟨-, -, hletters⟩ | ⟨hmem, -⟩⟩ := h.parens
  · have hword : Reads (word isKeyMark) a a ('\n' :: rest) := by
      apply reads_word (ne_nil_of_head? hx) hletters
      intro z hz
      cases hz
      decide
    have hentry : Refuses (parenEntry s block) (.unexpected '\n') (a ++ '\n' :: rest) := by
      apply Refuses.after hword
      exact Refuses.after (reads_peek rfl) (Refuses.after (reads_peek rfl) refuses_reject).bind
    intro p
    rw [turn_start hg (by rw [List.head?_append, hx]; rfl) hborder]
    exact hentry.bind (g.reverse ++ p)
  · exact absurd hmem hsign

/-! ## Dictionaries over several lines -/

/-- What stands between two attributes: a space, or a line break and a number of spaces. -/
def Style.joint (k : Style) : Option Nat → Text
  | none => k.comma ++ [' ']
  | some n => k.comma ++ '\n' :: List.replicate n ' '

/-- The attributes with what stands between them. Where the breaks are used up, it is a space. -/
def joined (k : Style) : List Text → List (Option Nat) → Text
  | [], _ => []
  | [a], _ => a
  | a :: b :: as, breaks =>
    a ++ (k.joint (breaks.headD none) ++ joined k (b :: as) breaks.tail)

def written (k : Style) (as : List Text) (breaks : List (Option Nat)) : Text :=
  k.opening :: (joined k as breaks ++ [k.closing])

/-- A line break stands directly after an attribute without an equals sign. -/
def BreaksBare : List Text → List (Option Nat) → Prop
  | a :: b :: as, breaks => '=' ∉ a ∧ breaks.headD none ≠ none ∨ BreaksBare (b :: as) breaks.tail
  | _, _ => False

theorem gaps_nil : Gaps [] := by simp [Gaps]

theorem gaps_break (n : Nat) : Gaps ('\n' :: List.replicate n ' ') := by
  intro x hx
  obtain rfl | hx := List.mem_cons.mp hx
  · rfl
  · rw [List.eq_of_mem_replicate hx]
    rfl

/-- What stands between two attributes is passed over in part after the one and in part before the
other, which starts with `x`. -/
theorem exists_parted_joint (k : Style) (o : Option Nat) (ha : k = .parens → o ≠ none → '=' ∈ a) :
    ∃ after before, k.joint o = after ++ before ∧ Gaps before ∧
      ∀ u x, u.head? = some x → x ∉ borders → Parted k a after (before ++ u) := by
  cases k with
  | braces =>
    cases o with
    | none => exact ⟨[','], [' '], rfl, by simp [Gaps, Text.isGap], fun u _ _ _ => .comma a _⟩
    | some n => exact ⟨[','], _, rfl, gaps_break n, fun u _ _ _ => .comma a _⟩
  | parens =>
    cases o with
    | none =>
      refine ⟨[' '], [], rfl, gaps_nil, fun u x hx hborder => ?_⟩
      obtain ⟨u, rfl⟩ := List.head?_eq_some_iff.mp hx
      exact .space a hborder u
    | some n => exact ⟨[], _, rfl, gaps_break n, fun u _ _ _ => .line (ha rfl (by simp)) _⟩

variable {as : List Text} {es : List (Text × Value)} {breaks : List (Option Nat)}

theorem head?_joined (h : Single s k a e) (breaks : List (Option Nat)) (rest : Text) :
    ∃ x, (joined k (a :: as) breaks ++ rest).head? = some x ∧ x ∉ borders := by
  obtain ⟨x, hx, hborder⟩ := h.exists_head
  refine ⟨x, ?_, hborder⟩
  cases as with
  | nil =>
    rw [joined, List.head?_append, hx]
    rfl
  | cons b as =>
    rw [joined, List.append_assoc, List.head?_append, hx]
    rfl

/-- An attribute and what follows it, which is the closing bracket or the next attribute. -/
theorem exists_parted (has : List.Forall₂ (Single s k) as es)
    (ha : k = .parens → as ≠ [] → breaks.headD none ≠ none → '=' ∈ a) :
    ∃ after before, Gaps before ∧
      joined k (a :: as) breaks = a ++ after ++ (before ++ joined k as breaks.tail) ∧
      ∀ rest, Parted k a after (before ++ (joined k as breaks.tail ++ k.closing :: rest)) := by
  cases has with
  | nil => exact ⟨[], [], gaps_nil, by simp [joined], fun rest => .closing k a rest⟩
  | cons hb has =>
    obtain ⟨after, before, hjoint, hbefore, hparted⟩ :=
      exists_parted_joint k (breaks.headD none) fun hk hbreak => ha hk (by simp) hbreak
    refine ⟨after, before, hbefore, by rw [joined, hjoint]; simp, fun rest => ?_⟩
    obtain ⟨x, hx, hborder⟩ := head?_joined hb breaks.tail (k.closing :: rest)
    exact hparted _ x hx hborder

theorem reads_closing {g : Text} (hg : Gaps g) :
    Reads (k.turn s block d) (g ++ [k.closing]) (.inr d) rest := by
  have hgap : Reads gap g g ([k.closing] ++ rest) := by
    apply reads_takeWhile hg
    intro x hx
    cases hx
    cases k <;> rfl
  refine hgap.bind ((reads_atEnd (by simp)).look (.ite_neg (by simp) ?_))
  exact (reads_peek rfl).look (.ite_pos rfl ((reads_skip _ _).last (reads_pure _ _)))

theorem not_mem_keys (h : (Dictionary.keys (d ++ e :: es)).Nodup) : e.1 ∉ d.keys := by
  intro hmem
  rw [Dictionary.keys, List.map_append, List.nodup_append] at h
  exact h.2.2 e.1 hmem e.1 (by simp) rfl

/-- A dictionary is read as it is written, unless a line break stands after an attribute in
parentheses that has no value. -/
theorem reads_joined (has : List.Forall₂ (Single s k) as es) :
    ∀ {breaks : List (Option Nat)} {g steps : Text} {d : Attributes}, Gaps g →
      ¬ (k = .parens ∧ BreaksBare as breaks) → (Dictionary.keys (d ++ es)).Nodup →
      as.length < steps.length →
      Reads (iterate (k.turn s block) steps d) (g ++ (joined k as breaks ++ [k.closing])) (d ++ es)
        rest := by
  induction has with
  | nil =>
    intro breaks g steps d hg _ _ hsteps
    obtain ⟨x, steps, rfl⟩ := List.exists_cons_of_length_pos (Nat.zero_lt_of_lt hsteps)
    rw [List.append_nil]
    exact .iterate_last x (reads_closing hg)
  | @cons a e as es ha has ih =>
    intro breaks g steps d hg hbreaks hnodup hsteps
    obtain ⟨x, steps, rfl⟩ := List.exists_cons_of_length_pos (Nat.zero_lt_of_lt hsteps)
    have hhead : k = .parens → as ≠ [] → breaks.headD none ≠ none → '=' ∈ a := by
      intro hk hne hbreak
      obtain ⟨b, as, rfl⟩ := List.exists_cons_of_ne_nil hne
      by_contra hmem
      exact hbreaks ⟨hk, .inl ⟨hmem, hbreak⟩⟩
    have htail : ¬ (k = .parens ∧ BreaksBare as breaks.tail) := by
      rintro ⟨hk, hbare⟩
      cases as with
      | nil => exact hbare
      | cons b as => exact hbreaks ⟨hk, .inr hbare⟩
    -- what stands after the attribute is passed over in part by this turn and in part by the next
    obtain ⟨after, before, hbefore, htext, hparted⟩ := exists_parted has hhead
    have hturn := reads_turn block hg ha (hparted rest) (not_mem_keys hnodup)
    have hloop := ih hbefore htail (d := d ++ [e]) (by simpa using hnodup)
      (Nat.lt_of_succ_lt_succ hsteps)
    have hrest : before ++ (joined k as breaks.tail ++ k.closing :: rest) =
        before ++ (joined k as breaks.tail ++ [k.closing]) ++ rest := by simp
    rw [hrest] at hturn
    rw [htext]
    simpa using hturn.iterate x hloop

/-- A dictionary in parentheses is refused if a line break stands after an attribute that has no
value. -/
theorem refuses_joined (has : List.Forall₂ (Single s .parens) as es) :
    ∀ {breaks : List (Option Nat)} {g steps : Text} {d : Attributes}, Gaps g →
      BreaksBare as breaks → (Dictionary.keys (d ++ es)).Nodup → as.length < steps.length →
      Refuses (iterate (Style.parens.turn s block) steps d) (.unexpected '\n')
        (g ++ (joined .parens as breaks ++ ')' :: rest)) := by
  induction has with
  | nil =>
    intro breaks g steps d _ hbreaks
    cases hbreaks
  | @cons a e as es ha has ih =>
    intro breaks g steps d hg hbreaks hnodup hsteps
    obtain ⟨x, steps, rfl⟩ := List.exists_cons_of_length_pos (Nat.zero_lt_of_lt hsteps)
    obtain ⟨b, as, rfl⟩ : ∃ b as', as = b :: as' := by
      cases as with
      | nil => cases hbreaks
      | cons b as => exact ⟨b, as, rfl⟩
    -- this turn is refused, or the first line break after a bare key comes later
    by_cases hhead : '=' ∉ a ∧ breaks.headD none ≠ none
    · obtain ⟨hsign, hbreak⟩ := hhead
      obtain ⟨n, hn⟩ := Option.ne_none_iff_exists'.mp hbreak
      have htext : joined .parens (a :: b :: as) breaks ++ ')' :: rest = a ++ '\n' ::
          (List.replicate n ' ' ++ joined .parens (b :: as) breaks.tail ++ ')' :: rest) := by
        rw [joined, hn]
        simp [Style.joint, Style.comma]
      rw [htext]
      exact (turn_broken hg ha hsign _).bind
    · have hsign : Style.parens = .parens → b :: as ≠ [] → breaks.headD none ≠ none → '=' ∈ a := by
        intro _ _ hbreak
        by_contra hmem
        exact hhead ⟨hmem, hbreak⟩
      obtain ⟨after, before, hbefore, htext, hparted⟩ := exists_parted has hsign
      have hturn := reads_turn block hg ha (hparted rest) (not_mem_keys hnodup)
      have hloop := ih hbefore (hbreaks.resolve_left hhead) (d := d ++ [e]) (by simpa using hnodup)
        (Nat.lt_of_succ_lt_succ hsteps)
      have hrest : g ++ (joined .parens (a :: b :: as) breaks ++ ')' :: rest) = g ++ (a ++ after) ++
          (before ++ (joined .parens (b :: as) breaks.tail ++ ')' :: rest)) := by simp [htext]
      rw [hrest]
      exact Refuses.after hturn hloop

/-- If a dictionary is accepted, then each of its keys stands there once. -/
theorem nodup_of_iterate (has : List.Forall₂ (Single s k) as es) :
    ∀ {g steps p rest : Text} {d d' : Attributes} {c : Cursor}, Gaps g → d.keys.Nodup →
      iterate (k.turn s block) steps d ⟨p, g ++ (joined k as [] ++ k.closing :: rest), 0, 0⟩ =
        .ok d' c →
      (Dictionary.keys (d ++ es)).Nodup := by
  induction has with
  | nil =>
    intro g steps p rest d d' c _ hnodup _
    rwa [List.append_nil]
  | @cons a e as es ha has ih =>
    intro g steps p rest d d' c hg hnodup h
    cases steps with
    | nil => cases h
    | cons x steps =>
      have hhead : k = .parens → as ≠ [] → ([] : List (Option Nat)).headD none ≠ none →
          '=' ∈ a := by simp
      obtain ⟨after, before, hbefore, htext, hparted⟩ := exists_parted has hhead
      have hrest : g ++ (joined k (a :: as) [] ++ k.closing :: rest) =
          g ++ (a ++ after ++ (before ++ (joined k as [] ++ k.closing :: rest))) := by simp [htext]
      rw [hrest] at h
      obtain ⟨r, c₁, hr, h⟩ := exists_of_bind_eq_ok h
      -- a key that is there already would have ended the loop
      by_cases hd : e.1 ∈ d.keys
      · obtain ⟨near, c', hturn⟩ := turn_duplicate block hg ha (hparted rest) hd p
        rw [List.tail_nil, hr] at hturn
        cases hturn
      · have hturn := reads_turn block hg ha (hparted rest) hd p
        rw [List.tail_nil, List.append_assoc, hr] at hturn
        cases hturn
        have hkeys : (Dictionary.keys (d ++ [e])).Nodup := by
          have hmap : Dictionary.keys (d ++ [e]) = d.keys ++ [e.1] := by simp [Dictionary.keys]
          rw [hmap, ← List.concat_eq_append]
          exact hnodup.concat hd
        simpa using ih hbefore hkeys h

theorem not_breaksBare_nil (as : List Text) : ¬ BreaksBare as [] := by
  induction as with
  | nil => exact id
  | cons a as ih =>
    cases as with
    | nil => exact id
    | cons b as =>
      rintro (⟨-, h⟩ | h)
      · exact h rfl
      · exact ih h

/-- There are at most as many turns as characters. -/
theorem length_le_joined (has : List.Forall₂ (Single s k) as es) (breaks : List (Option Nat)) :
    as.length ≤ (joined k as breaks).length := by
  induction has generalizing breaks with
  | nil => exact Nat.zero_le _
  | @cons a e as es ha has ih =>
    obtain ⟨x, hx, -⟩ := ha.exists_head
    have hpos : 0 < a.length := List.length_pos_iff.mpr (ne_nil_of_head? hx)
    cases has with
    | nil => exact hpos
    | cons hb has =>
      have hle := ih breaks.tail
      simp only [joined, List.length_cons, List.length_append] at hle ⊢
      omega

theorem length_lt_steps (has : List.Forall₂ (Single s k) as es) (breaks : List (Option Nat))
    (rest : Text) : as.length < (' ' :: (joined k as breaks ++ k.closing :: rest)).length := by
  have hle := length_le_joined has breaks
  simp only [List.length_cons, List.length_append]
  omega

/-- Reading of a dictionary is the loop over its attributes. -/
theorem dictionary_written (k : Style) (as : List Text) (breaks : List (Option Nat))
    (p rest : Text) :
    dictionary s block ⟨p, written k as breaks ++ rest, 0, 0⟩ =
      iterate (k.turn s block) (' ' :: (joined k as breaks ++ k.closing :: rest)) []
        ⟨k.opening :: p, joined k as breaks ++ k.closing :: rest, 0, 0⟩ := by
  have htext : written k as breaks ++ rest =
      k.opening :: (joined k as breaks ++ k.closing :: rest) := by simp [written]
  rw [htext, dictionary_opening]

theorem dictionary_unbroken (has : List.Forall₂ (Single s k) as es)
    (hnodup : (Dictionary.keys es).Nodup) (hbreaks : ¬ (k = .parens ∧ BreaksBare as breaks))
    (p rest : Text) :
    dictionary s block ⟨p, written k as breaks ++ rest, 0, 0⟩ =
      .ok es ⟨(written k as breaks).reverse ++ p, rest, 0, 0⟩ := by
  have hread : Reads
      (iterate (k.turn s block) (' ' :: (joined k as breaks ++ k.closing :: rest)) [])
      ([] ++ (joined k as breaks ++ [k.closing])) ([] ++ es) rest :=
    reads_joined has gaps_nil hbreaks hnodup (length_lt_steps has breaks rest)
  rw [dictionary_written]
  simpa [written] using hread (k.opening :: p)

/-- A dictionary is accepted whose attributes are separated by spaces, after commas in braces. Then
it has the same entries if line breaks and spaces stand in the place of some of these spaces, and it
is passed over as a whole; but in parentheses it is refused if a line break comes directly after an
attribute without a value. -/
theorem dictionary_broken (has : List.Forall₂ (Single s k) as es) {c : Cursor}
    (haccepted : dictionary s block ⟨p, written k as [] ++ rest, 0, 0⟩ = .ok d c)
    (breaks : List (Option Nat)) :
    (¬ (k = .parens ∧ BreaksBare as breaks) →
      dictionary s block ⟨p, written k as breaks ++ rest, 0, 0⟩ =
        .ok d ⟨(written k as breaks).reverse ++ p, rest, 0, 0⟩) ∧
    (k = .parens ∧ BreaksBare as breaks →
      ∃ near c', dictionary s block ⟨p, written k as breaks ++ rest, 0, 0⟩ =
        .error (.rejected (.unexpected '\n') near) c') := by
  have hnodup : (Dictionary.keys es).Nodup := by
    rw [dictionary_written] at haccepted
    exact nodup_of_iterate (g := []) (d := []) has gaps_nil List.nodup_nil haccepted
  obtain rfl : es = d := by
    rw [dictionary_unbroken has hnodup fun h => not_breaksBare_nil as h.2] at haccepted
    cases haccepted
    rfl
  constructor
  · intro hbreaks
    exact dictionary_unbroken has hnodup hbreaks p rest
  · rintro ⟨rfl, hbreaks⟩
    rw [dictionary_written]
    exact refuses_joined (g := []) (d := []) has gaps_nil hbreaks hnodup
      (length_lt_steps has breaks rest) ('(' :: p)

/-- A value without blanks on both sides of the sign before it. -/
theorem suffixed_given {w : Writing} {v : Assignment} {t : Text} (h : Offered w v t) :
    Suffixed w v (w.sign ++ t) := by
  simpa using Suffixed.given blanks_nil blanks_nil h

/-- A text, a bare key and a list: the first line may end after the text, but not after the key. -/
theorem dictionary_broken_three :
    dictionary {} noBlock ⟨[], "(a='x y'\n  b c=[1]) d".toList, 0, 0⟩ =
      .ok [(['a'], .one (.text "x y".toList)), (['b'], .one (.flag true)),
          (['c'], .many [.text ['1']])]
        ⟨"(a='x y'\n  b c=[1])".toList.reverse, " d".toList, 0, 0⟩ ∧
    ∃ near c', dictionary {} noBlock ⟨[], "(a='x y' b\n  c=[1]) d".toList, 0, 0⟩ =
      .error (.rejected (.unexpected '\n') near) c' := by
  have hnul : ∀ x ∈ "x y".toList, x.toNat ≠ 0 := List.all_iff_forall_prop.mp (by decide)
  have ha : Suffixed .equals (.one (.string '\'' "x y".toList rfl hnul (by decide)))
      "='x y'".toList := suffixed_given (.one _)
  have hitems : Items [.number '1' [] (by decide) (by simp)] ['1'] := .last (b := []) _ blanks_nil
  have hc : Suffixed .equals (.list [.number '1' [] (by decide) (by simp)]) "=[1]".toList :=
    suffixed_given (.list (w := .equals) (k := .square) (b := []) trivial blanks_nil hitems)
  have hsingles : List.Forall₂ (Single {} .parens) ["a='x y'".toList, ['b'], "c=[1]".toList]
      [(['a'], .one (.text "x y".toList)), (['b'], .one (.flag true)),
        (['c'], .many [.text ['1']])] := by
    have hkey {x : Char} (hx : (Text.isWord x || isDash x) = true) :
        ∀ y ∈ [x], (Text.isWord y || isDash y) = true := List.forall_mem_singleton.mpr hx
    refine .cons ?_ (.cons ?_ (.cons ?_ .nil))
    · exact single_of_suffixed (e := ⟨['a'], by simp, hkey (by decide), _⟩) ha
    · exact single_of_suffixed (w := .equals) (e := ⟨['b'], by simp, hkey (by decide), _⟩) .absent
    · exact single_of_suffixed (e := ⟨['c'], by simp, hkey (by decide), _⟩) hc
  have haccepted : dictionary {} noBlock
      ⟨[], written .parens ["a='x y'".toList, ['b'], "c=[1]".toList] [] ++ " d".toList, 0, 0⟩ =
      .ok _ _ :=
    dictionary_unbroken hsingles (by decide) (fun h => not_breaksBare_nil _ h.2) [] " d".toList
  constructor
  · exact (dictionary_broken hsingles haccepted [some 2]).1 (by simp [BreaksBare])
  · exact (dictionary_broken hsingles haccepted [none, some 2]).2 (by simp [BreaksBare])

/-- Two attributes without a value: on one line they are read, on two lines they are refused. -/
theorem bare_break_refused :
    dictionary {} noBlock (.ofText "(a b)".toList) =
      .ok [(['a'], .one (.flag true)), (['b'], .one (.flag true))]
        ⟨"(a b)".toList.reverse, [], 0, 0⟩ ∧
    ∃ near c', dictionary {} noBlock (.ofText "(a\nb)".toList) =
      .error (.rejected (.unexpected '\n') near) c' := by
  constructor
  · rfl
  · exact ⟨_, _, rfl⟩

end Haml.Attribute
