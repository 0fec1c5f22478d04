import Haml.Proofs.Reading.Refusals
import Haml.Proofs.Reading.Series
import Haml.Proofs.Text.Variables

/-!
Templates with carriage returns before their line breaks. Nodes are read as in the template without
them, unless a dictionary is refused. Main statement: the nodes of the template are the same, but a
blank line is an empty line of text and not counted on the node before it.
-/
namespace Haml

open Text (lead withReturns)

/-! ## Nodes -/

/-- A content, and the content with carriage returns in the body of a filter. -/
inductive Content.Returned : Content → Content → Prop
  | same (content : Content) : Content.Returned content content
  | filter {name body body' : Text} (h : Text.Returned false body body') :
      Content.Returned (.filter name body) (.filter name body')

/-- Nodes with the same indentation and the same blank lines after them, whose contents are the same
but for carriage returns. -/
structure Node.Returned (n n' : Node) : Prop where
  indent : n'.indent = n.indent
  newlines : n'.newlines = n.newlines
  content : n.content.Returned n'.content

namespace InlineVariable

theorem closing?_return (t : Text) :
    closing? (t ++ ['\r']) = (closing? t).map (· ++ ['\r']) := by
  apply Option.ext
  intro r
  rw [Option.map_eq_some_iff, closing?_eq_some, List.dropWhile_append]
  simp only [closing?_eq_some]
  cases h : t.dropWhile Text.isWhite with
  | nil => simp [show Text.isWhite '\r' = true from rfl]
  | cons x u =>
    simp only [List.isEmpty_cons, Bool.false_eq_true, if_false, List.cons_append, List.cons.injEq]
    constructor
    · rintro ⟨rfl, rfl⟩
      exact ⟨u, ⟨rfl, rfl⟩, rfl⟩
    · rintro ⟨_, ⟨rfl, rfl⟩, rfl⟩
      exact ⟨rfl, rfl⟩

theorem body?_return (t : Text) :
    body? (t ++ ['\r']) = (body? t).map fun r => (r.1, r.2 ++ ['\r']) := by
  induction t with
  | nil => rfl
  | cons x t ih =>
    rw [List.cons_append, body?, body?, closing?_return, ih]
    split
    · rfl
    · cases closing? t with
      | some r => rfl
      | none => simp [Option.map_map, Function.comp_def]

theorem isSome_braced?_return (t : Text) : (braced? (t ++ ['\r'])).isSome = (braced? t).isSome := by
  have hsplit := List.takeWhile_append_dropWhile (p := Text.isWhite) (l := t)
  unfold braced?
  rw [List.dropWhile_append, List.takeWhile_append]
  cases h : t.dropWhile Text.isWhite with
  | nil => rfl
  | cons x u =>
    have hshort : (t.takeWhile Text.isWhite).length ≠ t.length := by
      have hlength := congrArg List.length hsplit
      rw [List.length_append, h, List.length_cons] at hlength
      omega
    have hbody : body? (x :: u ++ ['\r']) = _ := body?_return (x :: u)
    rw [if_neg hshort, if_neg (by simp), hbody]
    cases body? (x :: u) with
    | some found => rfl
    | none =>
      by_cases hx : x = '}'
      · subst hx
        cases (t.takeWhile Text.isWhite).reverse.find? (· != '\n') <;> rfl
      · simp [hx]

theorem start?_of_ne {e : Bool} {x y : Char} (hy : y ≠ '{') (r : Text) :
    start? e (x :: y :: r) = none := by
  simp [start?, hy]

/-- A carriage return at the end of a line opens no inline variable. -/
theorem isSome_start?_return (e : Bool) (l : Text) :
    (start? e (l ++ ['\r'])).isSome = (start? e l).isSome := by
  match l with
  | [] => rfl
  | [x] => rfl
  | x :: y :: r =>
    by_cases hy : y = '{'
    · subst hy
      simp only [List.cons_append, start?]
      split
      · exact isSome_braced?_return r
      · rfl
    · rw [List.cons_append, List.cons_append, start?_of_ne hy, start?_of_ne hy]

end InlineVariable

namespace Node

open Reader

variable {c c₁ : Cursor} {S : Failure → Prop} {p : Profile} {block : Text → Except Failure Text}

theorem exists_of_append_return {x : Char} {l r : Text} (h : l ++ ['\r'] = x :: r) (hx : x ≠ '\r') :
    ∃ l₁, l = x :: l₁ ∧ l₁ ++ ['\r'] = r := by
  cases l with
  | nil =>
    cases h
    exact absurd rfl hx
  | cons y l =>
    cases h
    exact ⟨l, rfl, rfl⟩

/-- A line is taken for the same content if it ends with a carriage return. -/
theorem ofLine_return (p : Profile) {l : Text} : ofLine p (l ++ ['\r']) = ofLine p l := by
  have htrim : Text.trimRight (l ++ ['\r']) = Text.trimRight l :=
    Text.trimRight_append_blank (List.all_eq_true.mp (by decide)) l
  unfold ofLine
  rw [InlineVariable.isSome_start?_return, htrim]
  generalize hl : l ++ ['\r'] = l'
  split
  · rfl
  · split
    · obtain ⟨l₁, rfl, -⟩ := exists_of_append_return hl (by decide)
      rfl
    · obtain ⟨l₁, rfl, hl₁⟩ := exists_of_append_return hl (by decide)
      obtain ⟨l₂, rfl, hl₂⟩ := exists_of_append_return hl₁ (by decide)
      obtain ⟨l₃, rfl, -⟩ := exists_of_append_return hl₂ (by decide)
      rfl
    · obtain ⟨l₁, rfl, hl₁⟩ := exists_of_append_return hl (by decide)
      obtain ⟨l₂, rfl, -⟩ := exists_of_append_return hl₁ (by decide)
      rfl
    · next hother =>
      obtain ⟨l₁, rfl, rfl⟩ := exists_of_append_return hl (by decide)
      have hnot : ∀ tail, l₁ = '[' :: tail → False := by
        rintro tail rfl
        exact hother _ rfl
      simp
    · obtain ⟨l₁, rfl, hl₁⟩ := exists_of_append_return hl (by decide)
      obtain ⟨l₂, rfl, -⟩ := exists_of_append_return hl₁ (by decide)
      rfl
    · obtain ⟨l₁, rfl, -⟩ := exists_of_append_return hl (by decide)
      rfl
    · next hother =>
      obtain ⟨l₁, rfl, rfl⟩ := exists_of_append_return hl (by decide)
      have hnot : ∀ tail, l₁ = '#' :: tail → False := by
        rintro tail rfl
        exact hother _ rfl
      simp
    · next h₁ h₂ h₃ h₄ h₅ h₆ h₇ =>
      subst hl
      split
      · exact absurd rfl (h₁ _)
      · exact absurd rfl (h₂ _)
      · exact absurd rfl (h₃ _)
      · exact absurd rfl (h₄ _)
      · exact absurd rfl (h₅ _)
      · exact absurd rfl (h₆ _)
      · exact absurd rfl (h₇ _)
      · rfl

theorem startsElement_twin (h₁ : c.Moves c₁) : startsElement c₁.withReturns = startsElement c₁ := by
  obtain ⟨q, u, rfl⟩ := Cursor.exists_eq_of_within h₁.1
  have hhead : (withReturns u).head?.any (fun x => x == '%' || x == '#' || x == '.') =
      u.head?.any (fun x => x == '%' || x == '#' || x == '.') := by
    rw [Text.head?_withReturns]
    cases u.head? with
    | none => rfl
    | some x => exact Text.apply_lead (fun x => x == '%' || x == '#' || x == '.') rfl x
  have hpiece : ∀ y z : Char, '\n' ∉ [y, z] → '\r' ∉ [y, z] →
      (((withReturns u).take 2) == [y, z]) = (u.take 2 == [y, z]) := by
    intro y z hn hr
    rw [Bool.eq_iff_iff, beq_iff_eq, beq_iff_eq]
    exact Text.take_withReturns_eq_iff hn hr
  show ((withReturns u).head?.any _ &&
    !((withReturns u).take 2 == _ || (withReturns u).take 2 == _)) = _
  rw [hhead, hpiece _ _ (by decide) (by decide), hpiece _ _ (by decide) (by decide)]
  rfl

theorem row_blankToEmpty {l l' : Text} (hline : '\n' ∉ l ∧ '\r' ∉ l)
    (h : l' = l ∨ l' = l ++ ['\r']) :
    Text.RowReturned (Attribute.blankToEmpty l) (Attribute.blankToEmpty l') := by
  have hempty : '\n' ∉ Attribute.blankToEmpty l ∧ '\r' ∉ Attribute.blankToEmpty l := by
    rcases Attribute.blankToEmpty_eq_or l with he | he
    · simp [he]
    · rwa [he]
  refine ⟨hempty, ?_⟩
  rcases h with rfl | rfl
  · exact .inl rfl
  · have hreturn : Text.isBlank '\r' = true := rfl
    simp only [Attribute.blankToEmpty, List.all_append, List.all_cons, List.all_nil, hreturn,
      Bool.and_true]
    cases hblank : l.all Text.isBlank with
    | true => exact .inl rfl
    | false => exact .inr ⟨hblank, rfl⟩

/-- A line ahead that is read as a whole. -/
theorem lineTaken_twin (hcr : '\r' ∉ c.text) (h₁ : c.Moves c₁) :
    Twin c S (fun o o' _ => Option.Rel Text.RowReturned o o')
      ((do return some (Attribute.blankToEmpty (← Reader.line)) : Reader (Option Text)) c₁)
      ((do return some (Attribute.blankToEmpty (← Reader.line)) : Reader (Option Text))
        c₁.withReturns) := by
  rw [← h₁.text_eq] at hcr
  apply ((line_twin h₁).and (line_alike (E := fun _ => True) h₁)).bind
  rintro l l' c₂ h₂ ⟨hl, hread⟩
  have hfree : '\r' ∉ l := by
    intro hmem
    apply hcr
    rw [Cursor.text]
    rcases hread.2 with hrest | ⟨hrest, -⟩
    · simp [hrest, hmem]
    · simp [hrest, hmem]
  exact twin_pure h₂ (.some (row_blankToEmpty ⟨hread.1, hfree⟩ (hl.imp (·.1) (·.1))))

theorem deeperTurn_twin (hcr : '\r' ∉ c.text) (depth : Nat) (h₁ : c.Moves c₁) :
    Twin c S (fun o o' _ => Option.Rel Text.RowReturned o o') (deeperTurn depth c₁)
      (deeperTurn depth c₁.withReturns) := by
  apply (atEnd_twin h₁).bind
  rintro _ b c₂ h₂ ⟨rfl, rfl, -⟩
  apply Twin.ite Iff.rfl
  · intro _
    exact twin_pure h₂ .none
  · intro _
    apply (peekMargin_twin h₂).bind
    rintro _ m c₃ h₃ ⟨rfl, rfl, -⟩
    cases m with
    | none => exact lineTaken_twin hcr h₃
    | some m =>
      apply Twin.ite Iff.rfl
      · intro _
        exact twin_pure h₃ .none
      · intro _
        exact lineTaken_twin hcr h₃

/-- A filter has the same name, and its body has the same lines. -/
theorem filterNode_twin (hcr : '\r' ∉ c.text) (indent : Text) (h₁ : c.Moves c₁) :
    Twin c S (fun n n' _ => Node.Returned n n' ∧ n.newlines = 0) (filterNode indent c₁)
      (filterNode indent c₁.withReturns) := by
  apply (peek_twin h₁).bind
  rintro x _ c₂ h₂ ⟨rfl, rfl, t, ht⟩
  apply Twin.ite (Text.lead_eq_iff (by decide) (by decide)).not
  · intro _
    exact twin_throw
  · intro hx
    have hbreak : x ≠ '\n' := by
      rintro rfl
      exact hx (by decide)
    apply (skip_twin h₂ ht hbreak).bind
    rintro _ _ c₃ h₃ -
    apply (line?_twin h₃).bind
    intro name name' c₄ h₄ hname
    apply (allowance_twin h₄).bind
    rintro _ _ c₅ h₅ ⟨rfl, rfl, rfl⟩
    have hloop := (progress {} fun _ => .ok []).deeperLines indent.length
    have htwin : Twin c S (fun body body' _ => List.Forall₂ Text.RowReturned body body') _ _ :=
      hloop.twin (I := List.Forall₂ Text.RowReturned)
        (fun acc acc' c₆ h₆ hacc => gather_twin (deeperTurn_twin hcr _ h₆) hacc) h₅ .nil
    apply htwin.bind
    intro body body' c₆ h₆ hbody
    cases hname with
    | none => exact twin_throw
    | @some l l' hl =>
      have htrim : Text.trimRight l' = Text.trimRight l := by
        rcases hl with rfl | rfl
        · rfl
        · exact Text.trimRight_append_blank (List.all_eq_true.mp (by decide)) l
      refine twin_pure h₆ ⟨⟨rfl, rfl, ?_⟩, rfl⟩
      rw [htrim]
      exact .filter (Text.returned_unlines hbody)

/-- A node is read alike, unless a line break in a dictionary is refused. -/
theorem node_twin (hcr : '\r' ∉ c.text) (indent : Text) (h₁ : c.Moves c₁) :
    Twin c (Refused c.text) (fun n n' _ => Node.Returned n n' ∧ n.newlines = 0)
      (node p block indent c₁) (node p block indent c₁.withReturns) := by
  apply (peek_twin h₁).bind
  rintro x _ c₂ h₂ ⟨rfl, rfl, -⟩
  apply Twin.ite (Text.lead_eq_iff (by decide) (by decide))
  · intro _
    exact filterNode_twin hcr indent h₂
  · intro _
    apply (get_twin h₂).bind
    rintro _ _ c₃ h₃ ⟨rfl, rfl, rfl⟩
    apply Twin.ite
    · rw [startsElement_twin h₃]
    · intro _
      apply (Element.element_twin hcr h₃).bind
      rintro e _ c₄ h₄ rfl
      exact twin_pure h₄ ⟨⟨rfl, rfl, .same _⟩, rfl⟩
    · intro _
      apply (line_twin h₃).bind
      intro l l' c₄ h₄ hl
      have hsame : ofLine p l' = ofLine p l := by
        rcases hl with ⟨rfl, -⟩ | ⟨rfl, -⟩
        · rfl
        · exact ofLine_return p
      rw [hsame]
      cases ofLine p l with
      | ok content => exact twin_pure h₄ ⟨⟨rfl, rfl, .same _⟩, rfl⟩
      | error e => exact twin_throw

/-- What is read of a blank line that ends with a carriage return: an empty line of text. -/
def IsEmptyLine (n : Node) : Prop := n.content = .plain [] ∧ n.newlines = 0

/-- Nodes, last first, and the same nodes with an empty line of text in the place of each blank
line. Blank lines before the first node are not counted anywhere; they are there only if `start`
holds. -/
inductive Spread (start : Prop) : List Node → List Node → Prop
  | first {blanks : List Node} (hblanks : ∀ m ∈ blanks, IsEmptyLine m)
      (hstart : blanks ≠ [] → start) : Spread start [] blanks
  | node {n n' : Node} {ns ns' blanks : List Node} (hn : Node.Returned n.unspaced n')
      (hblanks : ∀ m ∈ blanks, IsEmptyLine m) (hcount : blanks.length = n.newlines)
      (h : Spread start ns ns') : Spread start (n :: ns) (blanks ++ n' :: ns')

variable {start : Prop} {read read' : List Node}

theorem Spread.cons {n n' : Node} (h : Spread start read read') (hn : Node.Returned n n')
    (hnew : n.newlines = 0) : Spread start (n :: read) (n' :: read') := by
  have hunspaced : n.unspaced = n := by rw [unspaced, ← hnew]
  rw [← hunspaced] at hn
  show Spread start (n :: read) ([] ++ n' :: read')
  exact .node hn nofun hnew.symm h

/-- A blank line is counted on the last node, or it is read as a node. -/
theorem Spread.blank {m : Node} (h : Spread start read read') (hstart : read = [] → start)
    (hm : IsEmptyLine m) : Spread start (addNewlines 1 read) (m :: read') := by
  cases h with
  | first hblanks _ => exact .first (List.forall_mem_cons.mpr ⟨hm, hblanks⟩) fun _ => hstart rfl
  | @node n n' ns ns' blanks hn hblanks hcount h =>
    show Spread start _ ((m :: blanks) ++ n' :: ns')
    refine .node hn (List.forall_mem_cons.mpr ⟨hm, hblanks⟩) ?_ h
    show (m :: blanks).length = n.newlines + 1
    rw [List.length_cons, hcount]

/-- Without blank lines, nodes correspond one to one. -/
theorem Spread.forall₂ (h : Spread start read read') (hstart : ¬ start)
    (hnew : ∀ n ∈ read, n.newlines = 0) : List.Forall₂ Node.Returned read read' := by
  induction h with
  | @first blanks _ hblank =>
    obtain rfl : blanks = [] := by
      by_contra hne
      exact hstart (hblank hne)
    exact .nil
  | @node n n' ns ns' blanks hn _ hcount _ ih =>
    rw [List.forall_mem_cons] at hnew
    obtain rfl : blanks = [] := List.eq_nil_of_length_eq_zero (hcount.trans hnew.1)
    have hunspaced : n.unspaced = n := by rw [unspaced, ← hnew.1]
    rw [hunspaced] at hn
    exact .cons hn (ih hnew.2)

theorem node_return (indent q rest : Text) :
    node p block indent ⟨q, '\r' :: '\n' :: rest, 0, 0⟩ =
      .ok { indent := indent, content := .plain [] } ⟨'\n' :: '\r' :: q, rest, 0, 0⟩ := by
  rfl

theorem not_mem_of_isIndent {b : Text} (hb : ∀ x ∈ b, Text.isIndent x = true) : '\n' ∉ b :=
  fun h => absurd (hb _ h) (by decide)

theorem all_end_return {b steps : Text} (hb : ∀ x ∈ b, Text.isIndent x = true) (read : List Node)
    (q : Text) (hsteps : steps ≠ []) :
    all p block steps read (Cursor.withReturns ⟨q, b, 0, 0⟩) =
      .ok read.reverse (Cursor.withReturns ⟨b.reverse ++ q, [], 0, 0⟩) := by
  have hfree := Text.withReturns_of_not_mem (not_mem_of_isIndent hb)
  rw [Cursor.withReturns_append, hfree]
  show all p block steps read ⟨(withReturns q.reverse).reverse, withReturns b, 0, 0⟩ = _
  rw [hfree]
  exact all_end hb read _ hsteps

theorem all_line_return {b w : Text} (hb : ∀ x ∈ b, Text.isIndent x = true) (hw : StartsLine w)
    (x : Char) (steps : Text) (read : List Node) (q : Text) :
    all p block (x :: steps) read (Cursor.withReturns ⟨q, b ++ w, 0, 0⟩) =
      (node p block (uniform b) >>= fun n => all p block steps (n :: read))
        (Cursor.withReturns ⟨b.reverse ++ q, w, 0, 0⟩) := by
  have hfree := Text.withReturns_of_not_mem (not_mem_of_isIndent hb)
  have hw' : StartsLine (withReturns w) := by
    obtain ⟨y, v, rfl, hy, hbreak⟩ := hw
    exact ⟨y, withReturns v, Text.withReturns_cons hbreak v, hy, hbreak⟩
  rw [Cursor.withReturns_append, hfree]
  show all p block (x :: steps) read
    ⟨(withReturns q.reverse).reverse, withReturns (b ++ w), 0, 0⟩ = _
  rw [Text.withReturns_append, hfree, all_line x steps read hb hw', addNewlines_zero]

/-- The loop over the nodes at a blank line that ends with a carriage return. -/
theorem all_return {b : Text} (hb : ∀ x ∈ b, Text.isIndent x = true) (x : Char) (steps : Text)
    (read : List Node) (q v : Text) :
    all p block (x :: steps) read (Cursor.withReturns ⟨q, b ++ '\n' :: v, 0, 0⟩) =
      all p block steps ({ indent := uniform b, content := .plain [] } :: read)
        (Cursor.withReturns ⟨'\n' :: (b.reverse ++ q), v, 0, 0⟩) := by
  have hfree := Text.withReturns_of_not_mem (not_mem_of_isIndent hb)
  have hreturn : StartsLine ('\r' :: '\n' :: withReturns v) := ⟨_, _, rfl, rfl, by decide⟩
  have hcursor : Cursor.withReturns ⟨'\n' :: (b.reverse ++ q), v, 0, 0⟩ =
      ⟨'\n' :: '\r' :: (b.reverse ++ (withReturns q.reverse).reverse), withReturns v, 0, 0⟩ := by
    simp [Cursor.withReturns, hfree]
  show all p block (x :: steps) read
    ⟨(withReturns q.reverse).reverse, withReturns (b ++ '\n' :: v), 0, 0⟩ = _
  rw [Text.withReturns_append, hfree, Text.withReturns_break, all_line x steps read hb hreturn,
    bind_of_ok (node_return _ _ _), addNewlines_zero, hcursor]

/-- The loops over the nodes go side by side. At a blank line, the one counts it on the last node,
and the other one reads an empty line of text. -/
theorem all_twin (hcr : '\r' ∉ c.text) (steps steps' : Text)
    (h₁ : c.Moves c₁) (hsteps : c₁.rest.length < steps.length)
    (hsteps' : c₁.withReturns.rest.length < steps'.length) (hread : Spread start read read')
    (hstart : read = [] → ∀ b v, (∀ x ∈ b, Text.isIndent x = true) → c₁.rest = b ++ '\n' :: v →
      start) :
    Twin c (Refused c.text) (fun nodes nodes' _ => Spread start nodes.reverse nodes'.reverse)
      (all p block steps read c₁) (all p block steps' read' c₁.withReturns) := by
  induction hlength : c₁.rest.length using Nat.strong_induction_on
    generalizing c₁ steps steps' read read' with
  | _ n ih =>
    subst hlength
    obtain ⟨q, u, rfl⟩ := Cursor.exists_eq_of_within h₁.1
    have hne : steps ≠ [] := List.ne_nil_of_length_pos (Nat.zero_lt_of_lt hsteps)
    have hne' : steps' ≠ [] := List.ne_nil_of_length_pos (Nat.zero_lt_of_lt hsteps')
    rcases ahead_cases u with hb | ⟨b, v, hb, rfl⟩ | ⟨b, w, hb, rfl, hw⟩
    · have hmoves : Cursor.Moves ⟨q, u, 0, 0⟩ ⟨u.reverse ++ q, [], 0, 0⟩ :=
        ⟨⟨rfl, rfl⟩, u, by simp, rfl⟩
      rw [all_end hb read q hne, all_end_return hb read' q hne']
      exact .ok (h₁.trans hmoves) (by simpa using hread)
    · have hblank : read = [] → start := fun h => hstart h b v hb rfl
      obtain ⟨x, steps', rfl⟩ := List.exists_cons_of_ne_nil hne'
      have hmoves : Cursor.Moves ⟨q, b ++ '\n' :: v, 0, 0⟩ ⟨'\n' :: (b.reverse ++ q), v, 0, 0⟩ :=
        ⟨⟨rfl, rfl⟩, b ++ ['\n'], by simp, by simp⟩
      have hlt : v.length < (b ++ '\n' :: v).length := by
        rw [List.length_append, List.length_cons]
        omega
      have hlt' := hmoves.withReturns_lt hlt
      rw [all_blank hb read v q hne, all_return hb]
      refine ih v.length hlt steps steps' (h₁.trans hmoves) (Nat.lt_trans hlt hsteps) ?_
        (hread.blank hblank ⟨rfl, rfl⟩) ?_ rfl
      · simp only [List.length_cons] at hsteps'
        omega
      · intro h _ _ _ _
        cases read with
        | nil => exact hblank rfl
        | cons n read => cases h
    · obtain ⟨x, steps, rfl⟩ := List.exists_cons_of_ne_nil hne
      obtain ⟨x', steps', rfl⟩ := List.exists_cons_of_ne_nil hne'
      have h₂ : c.Moves ⟨b.reverse ++ q, w, 0, 0⟩ := h₁.trans Cursor.moves_append
      have hnode := ((node_twin (p := p) (h₂.text_eq ▸ hcr) (uniform b) (.refl h₂.1)).and
        (node_alike (.refl p) (isIndent_uniform hb) h₂.1 (.self _ block))).since h₂
      rw [h₂.text_eq] at hnode
      rw [all_line x steps read hb hw, addNewlines_zero, all_line_return hb hw]
      apply hnode.bind
      rintro n n' c₃ h₃ ⟨hmoves, ⟨hn, hnew⟩, hlt, -⟩
      have hlt' : c₃.withReturns.rest.length < (withReturns w).length := hmoves.withReturns_lt hlt
      have hlt : c₃.rest.length < w.length := hlt
      have hsteps : (b ++ w).length < steps.length + 1 := hsteps
      have hsteps' : (withReturns (b ++ w)).length < steps'.length + 1 := hsteps'
      rw [Text.withReturns_append, List.length_append] at hsteps'
      rw [List.length_append] at hsteps
      refine ih _ ?_ steps steps' h₃ (by omega) (by omega) (hread.cons hn hnew) nofun rfl
      show c₃.rest.length < (b ++ w).length
      rw [List.length_append]
      omega

end Node

/-! ## Whole templates -/

def StartsBlank (t : Text) : Prop := ∃ b v, (∀ x ∈ b, Text.isIndent x = true) ∧ t = b ++ '\n' :: v

/-- The nodes of a template with carriage returns are those of the template without them, with an
empty line of text for each blank line. -/
theorem readNodes_withReturns {p : Profile} {block : Text → Except Failure Text} {t : Text}
    (hcr : '\r' ∉ t) :
    Corresponds (Refused t)
      (fun nodes nodes' => Node.Spread (StartsBlank t) nodes.reverse nodes'.reverse)
      (readNodes p block t) (readNodes p block (withReturns t)) := by
  have htwin : Reader.Twin (.ofText t) (Refused t)
      (fun nodes nodes' _ => Node.Spread (StartsBlank t) nodes.reverse nodes'.reverse)
      (Node.all p block (' ' :: t) [] (.ofText t))
      (Node.all p block (' ' :: withReturns t) [] (Cursor.ofText t).withReturns) := by
    have hcr : '\r' ∉ (Cursor.ofText t).text := hcr
    have hfirst : Node.Spread (StartsBlank t) [] [] := .first (by simp) fun h => absurd rfl h
    apply Node.all_twin hcr _ _ (.refl (Cursor.within_ofText t)) (by simp [Cursor.ofText])
      (by simp [Cursor.ofText, Cursor.withReturns]) hfirst
    exact fun _ b v hb ht => ⟨b, v, hb, ht⟩
  have hcursor : Cursor.ofText (withReturns t) = (Cursor.ofText t).withReturns := rfl
  rw [readNodes, readNodes, hcursor]
  generalize Node.all p block (' ' :: t) [] (.ofText t) = r at htwin ⊢
  generalize Node.all p block (' ' :: withReturns t) [] (.withReturns _) = r' at htwin ⊢
  cases htwin with
  | ok _ h => exact .ok h
  | error => exact .error
  | snag h => exact .refused h

end Haml
