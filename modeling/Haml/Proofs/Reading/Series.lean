import Haml.Proofs.Compile.Termination
import Haml.Proofs.Reading.NodeLocality

/-!
Templates line by line. A text is a `Series` of nodes if it is made of blank lines and of pieces that
are read as one node each. The loop over the nodes of a template finds exactly such a series, apart
from the blank lines that it counts on the nodes. A series can be cut and put together between any
two lines, and what follows it matters only through the margin of the next line.
-/
namespace Haml.Node

open Reader

variable {p : Profile} {block : Text → Except Failure Text} {q t u b rest : Text}

/-- The text `t`, where `rest` follows, is made of blank lines and of the nodes `ns`. -/
inductive Series (p : Profile) (block : Text → Except Failure Text) :
    Text → List Node → Text → Prop
  | nil {rest : Text} : Series p block [] [] rest
  | blank {b t rest : Text} {ns : List Node} (hb : ∀ x ∈ b, Text.isIndent x = true)
      (h : Series p block t ns rest) : Series p block (b ++ '\n' :: t) ns rest
  | node {t u rest : Text} {n : Node} {ns : List Node}
      (hn : Reads (next p block) t (0, some n) (u ++ rest)) (h : Series p block u ns rest) :
      Series p block (t ++ u) (n :: ns) rest

theorem Series.append {ns ms : List Node} (h : Series p block t ns (u ++ rest))
    (h' : Series p block u ms rest) : Series p block (t ++ u) (ns ++ ms) rest := by
  generalize hrest : u ++ rest = r at h
  induction h with
  | nil => exact h'
  | blank hb _ ih =>
    rw [List.append_assoc]
    exact .blank hb (ih hrest)
  | node hn _ ih =>
    subst hrest
    rw [List.append_assoc]
    apply Series.node _ (ih rfl)
    rwa [List.append_assoc]

/-! ## What is ahead -/

/-- A character that a line with something on it can start with after its indentation. -/
def StartsLine (u : Text) : Prop := ∃ x v, u = x :: v ∧ Text.isIndent x = false ∧ x ≠ '\n'

/-- Ahead is the end of the text, or a blank line, or a line with something on it. -/
theorem ahead_cases (u : Text) :
    (∀ x ∈ u, Text.isIndent x = true) ∨
    (∃ b v, (∀ x ∈ b, Text.isIndent x = true) ∧ u = b ++ '\n' :: v) ∨
    ∃ b v, (∀ x ∈ b, Text.isIndent x = true) ∧ u = b ++ v ∧ StartsLine v := by
  have hb : ∀ x ∈ u.takeWhile Text.isIndent, Text.isIndent x = true :=
    fun x hx => List.all_eq_true.mp List.all_takeWhile x hx
  have hu := List.takeWhile_append_dropWhile (p := Text.isIndent) (l := u)
  cases hv : u.dropWhile Text.isIndent with
  | nil =>
    left
    rw [hv, List.append_nil] at hu
    rwa [← hu]
  | cons x v =>
    have hx : Text.isIndent x = false := head?_dropWhile (by rw [hv]; rfl)
    rw [hv] at hu
    by_cases hbreak : x = '\n'
    · subst hbreak
      exact .inr (.inl ⟨_, v, hb, hu.symm⟩)
    · exact .inr (.inr ⟨_, x :: v, hb, hu.symm, x, v, rfl, hx, hbreak⟩)

theorem blankLines_steps {steps steps' : Text} {c : Cursor} (n : Nat) (hc : c.Within)
    (h : c.rest.length < steps.length) (h' : c.rest.length < steps'.length) :
    blankLines steps n c = blankLines steps' n c := by
  rw [blankLines_eq, blankLines_eq]
  exact (iterate_alike (E := fun _ => True) (I := fun _ _ => True)
    (fun n _ h₁ _ => blankTurn_alike n h₁) steps' steps n (.refl hc) trivial h' h).1

theorem blankLines_succ (steps : Text) (n : Nat) :
    blankLines steps (n + 1) = do
      let r ← blankLines steps n
      return (r.1 + 1, r.2) := by
  induction steps generalizing n with
  | nil => rfl
  | cons x steps ih =>
    simp only [blankLines, bind_assoc]
    apply bind_congr
    intro indent
    apply bind_congr
    intro found
    cases found with
    | true => exact ih (n + 1)
    | false => rfl

/-- What is done after the blank lines, whose number and following indentation are given. -/
def afterBlanks (p : Profile) (block : Text → Except Failure Text) (r : Nat × Text) :
    Reader (Nat × Option Node) := do
  if ← Reader.atEnd then
    return (r.1, none)
  else
    return (r.1, some (← node p block r.2))

theorem next_eq (q u : Text) :
    next p block ⟨q, u, 0, 0⟩ =
      (blankLines (' ' :: u) 0 >>= afterBlanks p block) ⟨q, u, 0, 0⟩ := rfl

theorem afterBlanks_succ (r : Nat × Text) :
    afterBlanks p block (r.1 + 1, r.2) = do
      let s ← afterBlanks p block r
      return (s.1 + 1, s.2) := by
  simp only [afterBlanks, bind_assoc]
  apply bind_congr
  intro atEnd
  cases atEnd with
  | true => rfl
  | false => simp

/-- A blank line is counted, and then what follows it is read. -/
theorem next_blank (hb : ∀ x ∈ b, Text.isIndent x = true) (u q : Text) :
    next p block ⟨q, b ++ '\n' :: u, 0, 0⟩ =
      (do let r ← next p block; return (r.1 + 1, r.2) : Reader (Nat × Option Node))
        ⟨'\n' :: (b.reverse ++ q), u, 0, 0⟩ := by
  have hmargin : Reads indentation b b ('\n' :: u) := reads_takeWhile hb (by rintro _ ⟨⟩; rfl)
  have hbreak : accept '\n' ⟨b.reverse ++ q, '\n' :: u, 0, 0⟩ =
      .ok true ⟨'\n' :: (b.reverse ++ q), u, 0, 0⟩ := reads_accept '\n' u (b.reverse ++ q)
  have hsteps : blankLines (b ++ '\n' :: u) 1 ⟨'\n' :: (b.reverse ++ q), u, 0, 0⟩ =
      blankLines (' ' :: u) 1 ⟨'\n' :: (b.reverse ++ q), u, 0, 0⟩ := by
    apply blankLines_steps 1 ⟨rfl, rfl⟩
    · simp only [List.length_append, List.length_cons]
      omega
    · simp
  have hfirst : blankLines (' ' :: (b ++ '\n' :: u)) 0 ⟨q, b ++ '\n' :: u, 0, 0⟩ =
      blankLines (' ' :: u) 1 ⟨'\n' :: (b.reverse ++ q), u, 0, 0⟩ := by
    rw [blankLines, bind_of_ok (hmargin q), bind_of_ok hbreak, ← hsteps]
    rfl
  calc next p block ⟨q, b ++ '\n' :: u, 0, 0⟩
      = (blankLines (' ' :: (b ++ '\n' :: u)) 0 >>= afterBlanks p block)
          ⟨q, b ++ '\n' :: u, 0, 0⟩ := next_eq _ _
    _ = (blankLines (' ' :: u) 1 >>= afterBlanks p block) ⟨'\n' :: (b.reverse ++ q), u, 0, 0⟩ := by
      simp only [Bind.bind, EStateM.bind, hfirst]
    _ = (do
          let r ← blankLines (' ' :: u) 0 >>= afterBlanks p block
          return (r.1 + 1, r.2)) ⟨'\n' :: (b.reverse ++ q), u, 0, 0⟩ := by
      simp only [blankLines_succ, bind_assoc, pure_bind, afterBlanks_succ]
    _ = _ := by
      simp only [Bind.bind, EStateM.bind, next_eq]

theorem next_end (hb : ∀ x ∈ b, Text.isIndent x = true) :
    Reads (next p block) b (0, none) [] := by
  intro q
  have hmargin : Reads indentation b b [] := reads_takeWhile hb nofun
  rw [next_eq, blankLines, bind_assoc, bind_of_ok (hmargin q)]
  rfl

/-- A line with something on it is read as a node. -/
theorem next_line (hb : ∀ x ∈ b, Text.isIndent x = true) (hu : StartsLine u) (q : Text) :
    next p block ⟨q, b ++ u, 0, 0⟩ =
      (do return (0, some (← node p block (uniform b))) : Reader (Nat × Option Node))
        ⟨b.reverse ++ q, u, 0, 0⟩ := by
  obtain ⟨x, v, rfl, hx, hbreak⟩ := hu
  have hmargin : Reads indentation b b (x :: v) := reads_takeWhile hb (by rintro _ ⟨⟩; exact hx)
  have hmore : accept '\n' ⟨b.reverse ++ q, x :: v, 0, 0⟩ =
      .ok false ⟨b.reverse ++ q, x :: v, 0, 0⟩ :=
    reads_accept_none (by simpa using hbreak) (b.reverse ++ q)
  rw [next_eq, blankLines, bind_assoc, bind_of_ok (hmargin q), bind_assoc, bind_of_ok hmore]
  rfl

/-- Spaces and tabs at the start of a line count for its margin. -/
theorem margin?_append {b : Text} (hb : ∀ x ∈ b, Text.isIndent x = true) (u : Text) :
    margin? (b ++ u) = (margin? u).map (·.map (· + b.length)) := by
  induction b with
  | nil =>
    rw [List.nil_append]
    cases margin? u with
    | error e => rfl
    | ok m => cases m <;> rfl
  | cons x b ih =>
    have hx : x = ' ' ∨ x = '\t' := by simpa [Text.isIndent] using hb x (by simp)
    have hcons : margin? (x :: (b ++ u)) = (margin? (b ++ u)).map (·.map (· + 1)) := by
      rcases hx with rfl | rfl <;> rfl
    rw [List.cons_append, hcons, ih fun y hy => hb y (by simp [hy])]
    cases margin? u with
    | error e => rfl
    | ok m =>
      cases m with
      | none => rfl
      | some k =>
        have hlength : k + b.length + 1 = k + (x :: b).length := by
          rw [List.length_cons]
          omega
        exact congrArg (fun k => Except.ok (some k)) hlength

theorem length_le_of_margin? {b u : Text} {m : Nat} (hb : ∀ x ∈ b, Text.isIndent x = true)
    (h : margin? (b ++ u) = .ok (some m)) : b.length ≤ m := by
  rw [margin?_append hb] at h
  cases hu : margin? u with
  | error e =>
    rw [hu] at h
    cases h
  | ok found =>
    rw [hu] at h
    cases found with
    | none => cases h
    | some k =>
      cases h
      exact Nat.le_add_left _ _

/-- What a node is made of: a filter of the deeper lines, an element of attributes, and any other
node of its line. -/
theorem node_cases {indent : Text} {c c' : Cursor} {n : Node}
    (h : node p block indent c = .ok n c') :
    n.indent = indent ∧
    ((∃ name body steps c₁, n.content = .filter name (Text.unlines body) ∧
        deeperLines indent.length steps c₁ = .ok body c') ∨
      (∃ e, n.content = .element e) ∨ ∃ l, ofLine p l = .ok n.content) := by
  obtain ⟨x, c₁, _, h⟩ := exists_of_bind_eq_ok h
  by_cases hfilter : x = ':'
  · rw [if_pos hfilter] at h
    obtain ⟨y, c₂, _, h⟩ := exists_of_bind_eq_ok h
    by_cases hy : y ≠ ':'
    · rw [if_pos hy] at h
      cases h
    · rw [if_neg hy] at h
      obtain ⟨_, c₃, _, h⟩ := exists_of_bind_eq_ok h
      obtain ⟨name, c₄, _, h⟩ := exists_of_bind_eq_ok h
      obtain ⟨steps, c₅, _, h⟩ := exists_of_bind_eq_ok h
      obtain ⟨body, c₆, hbody, h⟩ := exists_of_bind_eq_ok h
      cases name with
      | none => cases h
      | some name =>
        cases h
        exact ⟨rfl, .inl ⟨_, body, steps, c₅, rfl, hbody⟩⟩
  · rw [if_neg hfilter] at h
    obtain ⟨_, c₂, _, h⟩ := exists_of_bind_eq_ok h
    split at h
    · obtain ⟨e, c₃, _, h⟩ := exists_of_bind_eq_ok h
      cases h
      exact ⟨rfl, .inr (.inl ⟨e, rfl⟩)⟩
    · obtain ⟨l, c₃, _, h⟩ := exists_of_bind_eq_ok h
      cases hline : ofLine p l with
      | error e =>
        rw [hline] at h
        cases h
      | ok content =>
        rw [hline] at h
        cases h
        exact ⟨rfl, .inr (.inr ⟨l, hline⟩)⟩

theorem indent_of_node {indent : Text} {c c' : Cursor} {n : Node}
    (h : node p block indent c = .ok n c') : n.indent = indent :=
  (node_cases h).1

/-- What was read as the next node is read so wherever a line with the same margin follows. -/
theorem far_of_reads {r : Nat × Option Node} (h : Reads (next p block) t r rest) :
    EndsLine t rest ∧ ∀ rest', Far rest rest' → Reads (next p block) t r rest' := by
  obtain ⟨t', rest₁, _, hc, hends, hreads⟩ := local_next [] r _ (h [])
  obtain ⟨ht, rfl, _⟩ := Cursor.mk.inj hc
  obtain rfl : t = t' := by simpa using ht
  exact ⟨hends, hreads⟩

/-- A node is a piece of text that is not empty, and a line break ends it unless it is the last. -/
theorem break_of_reads {n : Node} (h : Reads (next p block) t (0, some n) rest) :
    t ≠ [] ∧ (rest ≠ [] → t.getLast? = some '\n') := by
  obtain ⟨hmoves, hend⟩ := (next_alike (.refl p) ⟨rfl, rfl⟩ (.self _ block)).ok (h [])
  obtain ⟨hlt, _, hfinish⟩ := hend.1 n rfl
  constructor
  · rintro rfl
    simp at hlt
  · intro hrest
    rcases hfinish with hnil | hbreak
    · exact absurd hnil hrest
    · simpa using hbreak

/-- The next node is read from its own line on, and it is indented as that line is. -/
theorem margin_of_reads {n : Node} (h : Reads (next p block) t (0, some n) rest) :
    ∃ b u, (∀ x ∈ b, Text.isIndent x = true) ∧ t = b ++ u ∧ StartsLine u ∧
      n.indent = uniform b := by
  have hread := h []
  rcases ahead_cases (t ++ rest) with hblank | ⟨b, v, hb, hu⟩ | ⟨b, v, hb, hu, hv⟩
  · have hnone : Reads (next p block) (t ++ rest) (0, none) [] := next_end hblank
    have hend := hnone []
    rw [List.append_nil, hread] at hend
    cases hend
  · rw [hu, next_blank hb] at hread
    obtain ⟨r, c, _, hr⟩ := exists_of_bind_eq_ok hread
    cases hr
  · rw [hu, next_line hb hv] at hread
    obtain ⟨m, c, hm, hr⟩ := exists_of_bind_eq_ok hread
    cases hr
    obtain ⟨⟨_, taken, hv', htaken⟩, hlt, _⟩ :=
      (node_alike (.refl p) (isIndent_uniform hb) ⟨rfl, rfl⟩ (.self _ block)).ok hm
    have ht : t = b ++ taken := by simpa using congrArg List.reverse htaken
    refine ⟨b, taken, hb, ht, ?_, indent_of_node hm⟩
    obtain ⟨x, w, hx⟩ := hv
    cases taken with
    | nil =>
      obtain rfl : v = rest := hv'
      exact absurd hlt (Nat.lt_irrefl _)
    | cons y taken =>
      obtain rfl : y = x := by simpa [hx.1] using congrArg List.head? hv'.symm
      exact ⟨y, taken, rfl, hx.2⟩

/-- A piece that is read as a node stands at the start of a series before which it stands. -/
theorem Series.tail {n : Node} {ns : List Node} (h : Series p block (t ++ u) ns rest)
    (hn : Reads (next p block) t (0, some n) (u ++ rest)) :
    ∃ ms, ns = n :: ms ∧ Series p block u ms rest := by
  generalize htext : t ++ u = v at h
  cases h with
  | nil =>
    have ht := (break_of_reads hn).1
    simp_all
  | blank hb _ =>
    have hread := hn []
    rw [← List.append_assoc, htext, List.append_assoc, List.cons_append, next_blank hb] at hread
    obtain ⟨r, c, _, hr⟩ := exists_of_bind_eq_ok hread
    cases hr
  | @node t' u' _ m ms hm h =>
    have hread := hn []
    rw [← List.append_assoc, htext, List.append_assoc, hm []] at hread
    obtain ⟨⟨⟩, hc⟩ := EStateM.Result.ok.inj hread
    obtain ⟨ht, hu, _⟩ := Cursor.mk.inj hc
    obtain rfl : u' = u := List.append_cancel_right hu
    exact ⟨ms, rfl, h⟩

theorem Series.ne_nil {n : Node} {ns : List Node} (h : Series p block t (n :: ns) rest) :
    t ≠ [] := by
  cases h with
  | blank => simp
  | node hn _ => simp [(break_of_reads hn).1]

/-! ## Following a series -/

def unspaced (n : Node) : Node := { n with newlines := 0 }

theorem unspaced_addNewlines (k : Nat) (read : List Node) :
    (addNewlines k read).map unspaced = read.map unspaced := by
  cases read with
  | nil => rfl
  | cons n read => rfl

theorem addNewlines_zero (read : List Node) : addNewlines 0 read = read := by
  cases read with
  | nil => rfl
  | cons n read => rfl

theorem addNewlines_succ (k : Nat) (read : List Node) :
    addNewlines (k + 1) read = addNewlines k (addNewlines 1 read) := by
  cases read with
  | nil => rfl
  | cons n read => simp [addNewlines, Nat.add_comm, Nat.add_left_comm]

theorem all_blank {steps : Text} (hb : ∀ x ∈ b, Text.isIndent x = true) (read : List Node)
    (u q : Text) (hsteps : steps ≠ []) :
    all p block steps read ⟨q, b ++ '\n' :: u, 0, 0⟩ =
      all p block steps (addNewlines 1 read) ⟨'\n' :: (b.reverse ++ q), u, 0, 0⟩ := by
  obtain ⟨x, steps, rfl⟩ := List.exists_cons_of_ne_nil hsteps
  rw [all, all]
  simp only [Bind.bind, EStateM.bind, next_blank hb]
  cases next p block ⟨'\n' :: (b.reverse ++ q), u, 0, 0⟩ with
  | error e c => rfl
  | ok r c =>
    dsimp only [pure, EStateM.pure]
    rw [addNewlines_succ]

/-- The loop over the nodes follows a series that is ahead. -/
theorem all_series {ns : List Node} (h : Series p block t ns rest) (steps : Text)
    (hsteps : (t ++ rest).length < steps.length) (read : List Node) (q : Text) :
    ∃ steps' read', rest.length < steps'.length ∧
      read'.map unspaced = (ns.reverse ++ read).map unspaced ∧
      all p block steps read ⟨q, t ++ rest, 0, 0⟩ =
        all p block steps' read' ⟨t.reverse ++ q, rest, 0, 0⟩ := by
  induction h generalizing steps read q with
  | nil => exact ⟨steps, read, hsteps, rfl, rfl⟩
  | @blank b t rest ns hb _ ih =>
    have hne : steps ≠ [] := by
      rintro rfl
      simp at hsteps
    have hlen : (t ++ rest).length < steps.length := by
      simp only [List.length_append, List.length_cons] at hsteps ⊢
      omega
    obtain ⟨steps', read', hrest, hread, hall⟩ :=
      ih steps hlen (addNewlines 1 read) ('\n' :: (b.reverse ++ q))
    refine ⟨steps', read', hrest, ?_, ?_⟩
    · rw [hread, List.map_append, unspaced_addNewlines, List.map_append]
    · rw [List.append_assoc, List.cons_append, all_blank hb read (t ++ rest) q hne, hall]
      simp
  | @node t u rest n ns hn _ ih =>
    cases steps with
    | nil => simp at hsteps
    | cons x steps =>
      have ht := List.length_pos_iff.mpr (break_of_reads hn).1
      have hlen : (u ++ rest).length < steps.length := by
        simp only [List.length_append, List.length_cons] at hsteps ⊢
        omega
      obtain ⟨steps', read', hrest, hread, hall⟩ :=
        ih steps hlen (n :: addNewlines 0 read) (t.reverse ++ q)
      refine ⟨steps', read', hrest, ?_, ?_⟩
      · rw [hread]
        simp [unspaced_addNewlines]
      · have hnext := hn q
        rw [List.append_assoc, all, bind_of_ok hnext]
        simpa using hall

/-- The loop over the nodes at a line with something on it. -/
theorem all_line (x : Char) (steps : Text) (read : List Node)
    (hb : ∀ x ∈ b, Text.isIndent x = true) (hu : StartsLine u) (q : Text) :
    all p block (x :: steps) read ⟨q, b ++ u, 0, 0⟩ =
      (node p block (uniform b) >>= fun n => all p block steps (n :: addNewlines 0 read))
        ⟨b.reverse ++ q, u, 0, 0⟩ := by
  rw [all]
  simp only [Bind.bind, EStateM.bind, next_line hb hu]
  cases node p block (uniform b) ⟨b.reverse ++ q, u, 0, 0⟩ with
  | error e c => rfl
  | ok n c => rfl

theorem all_end {steps : Text} (hb : ∀ x ∈ b, Text.isIndent x = true) (read : List Node)
    (q : Text) (hsteps : steps ≠ []) :
    all p block steps read ⟨q, b, 0, 0⟩ = .ok read.reverse ⟨b.reverse ++ q, [], 0, 0⟩ := by
  obtain ⟨x, steps, rfl⟩ := List.exists_cons_of_ne_nil hsteps
  have hend : Reads (next p block) b (0, none) [] := next_end hb
  have hnext := hend q
  rw [List.append_nil] at hnext
  rw [all, bind_of_ok hnext]
  cases read with
  | nil => rfl
  | cons n read => rfl

/-- A text that is a series of nodes, with blanks after the last line, has these nodes. -/
theorem readNodes_of_series {ns : List Node} (h : Series p block t ns b)
    (hb : ∀ x ∈ b, Text.isIndent x = true) :
    ∃ nodes, readNodes p block (t ++ b) = .ok nodes ∧ nodes.map unspaced = ns.map unspaced := by
  obtain ⟨steps, read, hsteps, hread, hall⟩ := all_series h (' ' :: (t ++ b)) (by simp) [] []
  have hne : steps ≠ [] := List.ne_nil_of_length_pos (Nat.zero_lt_of_lt hsteps)
  refine ⟨read.reverse, ?_, ?_⟩
  · rw [readNodes, Cursor.ofText, hall, all_end hb read (t.reverse ++ []) hne]
  · rw [List.map_reverse, hread]
    simp

/-! ## Finding a series -/

/-- What is read next is a series of at most one node. -/
theorem series_of_next {k : Nat} {found : Option Node} {c : Cursor} (u q : Text)
    (h : next p block ⟨q, u, 0, 0⟩ = .ok (k, found) c) :
    ∃ t rest, u = t ++ rest ∧ Series p block t found.toList rest ∧
      (∀ n, found = some n → c = ⟨t.reverse ++ q, rest, 0, 0⟩) ∧
      (found = none → ∀ x ∈ rest, Text.isIndent x = true) := by
  induction hlength : u.length using Nat.strongRecOn generalizing k u q with
  | ind m ih =>
    subst hlength
    rcases ahead_cases u with hblank | ⟨b, v, hb, rfl⟩ | ⟨b, v, hb, rfl, hv⟩
    · have hend : Reads (next p block) u (0, none) [] := next_end hblank
      have hnone := hend q
      rw [List.append_nil, h] at hnone
      cases hnone
      exact ⟨[], u, rfl, .nil, nofun, fun _ => hblank⟩
    · rw [next_blank hb] at h
      obtain ⟨⟨k', found'⟩, c₁, h, hr⟩ := exists_of_bind_eq_ok h
      cases hr
      obtain ⟨t, rest, rfl, hseries, hsome, hnone⟩ := ih v.length (by simp; omega) v _ h rfl
      refine ⟨b ++ '\n' :: t, rest, by simp, .blank hb hseries, fun n hn => ?_, hnone⟩
      rw [hsome n hn]
      simp
    · have hread := h
      rw [next_line hb hv] at hread
      obtain ⟨n, c₁, _, hr⟩ := exists_of_bind_eq_ok hread
      cases hr
      obtain ⟨t, rest, hu, rfl, _, hreads⟩ := local_next q _ _ h
      rw [hu]
      refine ⟨t, rest, rfl, ?_, fun _ _ => rfl, nofun⟩
      have hone : Series p block (t ++ []) [n] rest := .node (hreads rest (.inl rfl)) .nil
      rwa [List.append_nil] at hone

/-- A loop that comes to its end has found a series. -/
theorem series_of_all {steps : Text} {read nodes : List Node} {c : Cursor}
    (h : all p block steps read ⟨q, u, 0, 0⟩ = .ok nodes c) :
    ∃ t b ns, u = t ++ b ∧ (∀ x ∈ b, Text.isIndent x = true) ∧ Series p block t ns b ∧
      nodes.map unspaced = (read.reverse ++ ns).map unspaced := by
  induction steps generalizing read q u with
  | nil => cases h
  | cons x steps ih =>
    rw [all] at h
    obtain ⟨⟨k, found⟩, c₁, hnext, h⟩ := exists_of_bind_eq_ok h
    obtain ⟨t, rest, rfl, hseries, hsome, hnone⟩ := series_of_next u q hnext
    cases found with
    | none =>
      cases h
      refine ⟨t, rest, [], rfl, hnone rfl, hseries, ?_⟩
      rw [List.map_reverse, unspaced_addNewlines]
      simp
    | some n =>
      cases hsome n rfl
      obtain ⟨t', b, ns, rfl, hb, hseries', hnodes⟩ := ih h
      refine ⟨t ++ t', b, n :: ns, by simp, hb, hseries.append hseries', ?_⟩
      rw [hnodes]
      simp [List.map_reverse, unspaced_addNewlines]

/-! ## What follows a series -/

theorem Series.break_mem {ns : List Node} (h : Series p block t ns rest) (hrest : rest ≠ [])
    (ht : t ≠ []) : '\n' ∈ t := by
  cases h with
  | nil => exact absurd rfl ht
  | blank hb _ => simp
  | node hn _ =>
    have hlast := (break_of_reads hn).2 (by simp [hrest])
    exact List.mem_append_left _ (List.mem_of_getLast? hlast)

/-- A series stays one where another text follows it that ends the same filters. -/
theorem Series.far {ns : List Node} {rest' : Text} (h : Series p block t ns rest) (hrest : rest ≠ [])
    (hfar : Far rest rest') : Series p block t ns rest' := by
  induction h with
  | nil => exact .nil
  | blank hb _ ih => exact .blank hb (ih hrest hfar)
  | @node t u rest n ns hn hu ih =>
    apply Series.node _ (ih hrest hfar)
    apply (far_of_reads hn).2
    by_cases hnil : u = []
    · subst hnil
      exact hfar
    · exact far_of_agree (.of_mem (hu.break_mem hrest hnil))

/-- The node that is read first is the first of the series. -/
theorem Series.first {ns : List Node} {k : Nat} {found : Option Node} {c : Cursor}
    (h : Series p block t ns b) (hb : ∀ x ∈ b, Text.isIndent x = true)
    (hnext : next p block ⟨q, t ++ b, 0, 0⟩ = .ok (k, found) c) : found = ns.head? := by
  induction h generalizing q k c with
  | nil =>
    have hend : Reads (next p block) _ (0, none) [] := next_end hb
    have hnone := hend q
    rw [List.append_nil] at hnone
    rw [List.nil_append, hnone] at hnext
    cases hnext
    rfl
  | blank hblank _ ih =>
    rw [List.append_assoc, List.cons_append, next_blank hblank] at hnext
    obtain ⟨⟨k', found'⟩, c₁, hnext, hr⟩ := exists_of_bind_eq_ok hnext
    cases hr
    exact ih hb hnext
  | node hn _ _ =>
    rw [List.append_assoc, hn q] at hnext
    cases hnext
    rfl

end Haml.Node
