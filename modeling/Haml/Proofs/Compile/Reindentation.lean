import Haml.Proofs.Compile.Comments
import Haml.Proofs.Forest.Likeness
import Haml.Proofs.Text.Lines
import Mathlib.Order.Monotone.Basic

/-!
Templates that are indented in another way. If every node stands on one line, only the order of the
indentations counts: with wider or narrower ones that are in the same order, a template is accepted
or refused as before, it has the same tree, and its markup changes in its blanks only.
-/
namespace Haml

/-! ## Other indentations -/

/-- A row with another indentation; a blank one stays as it is. -/
def reindentRow (f : Nat → Nat) (row : Text) : Text :=
  if (row.dropWhile Text.isIndent).isEmpty then row
  else List.replicate (f (row.takeWhile Text.isIndent).length) ' ' ++ row.dropWhile Text.isIndent

/-- A template in which an indentation of `n` characters is one of `f n` spaces. -/
def reindent (f : Nat → Nat) (t : Text) : Text := Text.unlines (t.lines.map (reindentRow f))

/-- What stands on a line starts no filter, and where it can be read as a node, the node ends with
the line whatever follows it. -/
def OneLine (p : Profile) (body : Text) : Prop :=
  body.head? ≠ some ':' ∧ ∀ q rest n c,
    Node.node p (compile p) [] ⟨q, body ++ '\n' :: rest, 0, 0⟩ = .ok n c → c.rest = rest

def OneLiners (p : Profile) (t : Text) : Prop :=
  ∀ row ∈ t.lines, row.dropWhile Text.isIndent ≠ [] → OneLine p (row.dropWhile Text.isIndent)

def Node.unindented (n : Node) : Node := { n with indent := [] }

/-- Two templates with the same lines up to their indentations, which stand in the relation `ρ`. -/
inductive Aligned (p : Profile) (ρ : Nat → Nat → Prop) : Text → Text → Prop
  | blank {b : Text} (hb : ∀ x ∈ b, Text.isIndent x = true) : Aligned p ρ b b
  | last {b b' body : Text} (hb : ∀ x ∈ b, Text.isIndent x = true)
      (hb' : ∀ x ∈ b', Text.isIndent x = true) (hρ : ρ b.length b'.length)
      (hbody : Node.StartsLine body) (hbreak : '\n' ∉ body) (hone : OneLine p body) :
      Aligned p ρ (b ++ body) (b' ++ body)
  | blankRow {b t t' : Text} (hb : ∀ x ∈ b, Text.isIndent x = true) (h : Aligned p ρ t t') :
      Aligned p ρ (b ++ '\n' :: t) (b ++ '\n' :: t')
  | row {b b' body t t' : Text} (hb : ∀ x ∈ b, Text.isIndent x = true)
      (hb' : ∀ x ∈ b', Text.isIndent x = true) (hρ : ρ b.length b'.length)
      (hbody : Node.StartsLine body) (hone : OneLine p body) (h : Aligned p ρ t t') :
      Aligned p ρ (b ++ (body ++ '\n' :: t)) (b' ++ (body ++ '\n' :: t'))

variable {p : Profile} {ρ : Nat → Nat → Prop} {t t' : Text}

theorem Aligned.symm (h : Aligned p ρ t t') : Aligned p (fun a b => ρ b a) t' t := by
  induction h with
  | blank hb => exact .blank hb
  | last hb hb' hρ hbody hbreak hone => exact .last hb' hb hρ hbody hbreak hone
  | blankRow hb _ ih => exact .blankRow hb ih
  | row hb hb' hρ hbody hone _ ih => exact .row hb' hb hρ hbody hone ih

/-- What follows a line is as good as what follows the corresponding one. -/
theorem Aligned.loose (h : Aligned p ρ t t') : Reader.Loose t t' := by
  cases h with
  | blank => exact .inr rfl
  | last _ _ _ hbody =>
    obtain ⟨x, v, rfl, -⟩ := hbody
    exact .inl (by simp)
  | blankRow => exact .inl (by simp)
  | row => exact .inl (by simp)

/-- A row is blank and stays so, or something stands on it behind its indentation. -/
theorem row_cases (f : Nat → Nat) {row : Text} (hbreak : '\n' ∉ row) :
    ((∀ x ∈ row, Text.isIndent x = true) ∧ reindentRow f row = row) ∨
    ∃ b, (∀ x ∈ b, Text.isIndent x = true) ∧ row = b ++ row.dropWhile Text.isIndent ∧
      Node.StartsLine (row.dropWhile Text.isIndent) ∧
      reindentRow f row = List.replicate (f b.length) ' ' ++ row.dropWhile Text.isIndent := by
  have hindent : ∀ x ∈ row.takeWhile Text.isIndent, Text.isIndent x = true :=
    fun x hx => List.all_eq_true.mp List.all_takeWhile x hx
  have hsplit := List.takeWhile_append_dropWhile (p := Text.isIndent) (l := row)
  rw [reindentRow]
  cases hbody : row.dropWhile Text.isIndent with
  | nil =>
    rw [hbody, List.append_nil] at hsplit
    rw [hsplit] at hindent
    exact .inl ⟨hindent, rfl⟩
  | cons x v =>
    rw [hbody] at hsplit
    refine .inr ⟨_, hindent, hsplit.symm, ⟨x, v, rfl, ?_, ?_⟩, rfl⟩
    · exact Reader.head?_dropWhile (by rw [hbody]; rfl)
    · rintro rfl
      exact hbreak (by rw [← hsplit]; simp)

/-- Rows that are indented in another way are aligned with the old ones. -/
theorem aligned_rows (f : Nat → Nat) {rows : List Text} (hne : rows ≠ [])
    (hbreak : ∀ row ∈ rows, '\n' ∉ row)
    (hone : ∀ row ∈ rows, row.dropWhile Text.isIndent ≠ [] →
      OneLine p (row.dropWhile Text.isIndent)) :
    Aligned p (fun a b => b = f a) (Text.unlines rows)
      (Text.unlines (rows.map (reindentRow f))) := by
  induction rows with
  | nil => exact absurd rfl hne
  | cons row rows ih =>
    have hrest (hrows : rows ≠ []) := ih hrows (fun r hr => hbreak r (List.mem_cons_of_mem _ hr))
      fun r hr => hone r (List.mem_cons_of_mem _ hr)
    have hrow := hbreak row (List.mem_cons_self ..)
    rw [List.map_cons]
    rcases row_cases f hrow with ⟨hblank, hsame⟩ | ⟨b, hb, hsplit, hbody, hsame⟩
    · rw [hsame]
      cases rows with
      | nil => simpa [Text.unlines] using Aligned.blank hblank
      | cons row' rows =>
        have haligned := Aligned.blankRow hblank (hrest (by simp))
        simpa [Text.unlines, List.intercalate_cons_cons] using haligned
    · have hspaces : ∀ x ∈ List.replicate (f b.length) ' ', Text.isIndent x = true := by
        intro x hx
        rw [List.eq_of_mem_replicate hx]
        rfl
      have hlength : (List.replicate (f b.length) ' ').length = f b.length := by simp
      have hone' : OneLine p (row.dropWhile Text.isIndent) := by
        obtain ⟨x, v, hxv, -⟩ := hbody
        exact hone row (List.mem_cons_self ..) (by simp [hxv])
      rw [hsame]
      rw [hsplit] at hrow
      cases rows with
      | nil =>
        have haligned : Aligned p (fun a b => b = f a) _ _ := .last hb hspaces hlength hbody
          (fun hx => hrow (List.mem_append_right _ hx)) hone'
        rw [← hsplit] at haligned
        simpa [Text.unlines] using haligned
      | cons row' rows =>
        have haligned : Aligned p (fun a b => b = f a) _ _ :=
          .row hb hspaces hlength hbody hone' (hrest (by simp))
        rw [← List.append_assoc, ← hsplit] at haligned
        simpa [Text.unlines, List.intercalate_cons_cons] using haligned

theorem aligned_reindent (f : Nat → Nat) (h : OneLiners p t) :
    Aligned p (fun a b => b = f a) t (reindent f t) := by
  have haligned := aligned_rows f (Text.splitWhen_ne_nil (· == '\n') t)
    (fun row hrow => Text.not_mem_of_mem_lines hrow) h
  rwa [show Text.unlines (Text.splitWhen (· == '\n') t) = t from Text.unlines_lines t] at haligned

/-! ## Nodes of aligned templates -/

namespace Node

open Reader

variable {block : Text → Except Failure Text} {q u b body indent : Text} {n : Node} {c : Cursor}

/-- Apart from filters, nodes are read alike with all indentations. -/
theorem node_reindent (indent' : Text) (hu : u.head? ≠ some ':')
    (h : node p block indent ⟨q, u, 0, 0⟩ = .ok n c) :
    node p block indent' ⟨q, u, 0, 0⟩ = .ok { n with indent := indent' } c := by
  obtain ⟨x, c₁, hpeek, h⟩ := exists_of_bind_eq_ok h
  have hx : x ≠ ':' := by
    rintro rfl
    cases u with
    | nil => cases hpeek
    | cons y u =>
      cases hpeek
      exact hu rfl
  rw [if_neg hx] at h
  rw [node, bind_of_ok hpeek, if_neg hx]
  obtain ⟨c₂, c₃, hget, h⟩ := exists_of_bind_eq_ok h
  rw [bind_of_ok hget]
  split at h
  · next hstarts =>
    obtain ⟨e, c₄, he, h⟩ := exists_of_bind_eq_ok h
    rw [if_pos hstarts, bind_of_ok he]
    cases h
    rfl
  · next hstarts =>
    obtain ⟨l, c₄, hl, h⟩ := exists_of_bind_eq_ok h
    rw [if_neg hstarts, bind_of_ok hl]
    cases hline : ofLine p l with
    | error e =>
      rw [hline] at h
      cases h
    | ok content =>
      rw [hline] at h
      cases h
      rfl

theorem head?_append_break (h : body.head? ≠ some ':') (rest : Text) :
    (body ++ '\n' :: rest).head? ≠ some ':' := by
  cases body with
  | nil => simp
  | cons x v => exact h

/-- A node on one line is read alike wherever the line stands. -/
theorem reads_oneLine (hone : OneLine p body) {rest rest' : Text}
    (h : node p (compile p) indent ⟨q, body ++ '\n' :: rest, 0, 0⟩ = .ok n c)
    (hrest : Loose rest rest') (indent' : Text) :
    c = ⟨'\n' :: (body.reverse ++ q), rest, 0, 0⟩ ∧
      Reads (node p (compile p) indent') (body ++ ['\n']) { n with indent := indent' } rest' := by
  have hhead := head?_append_break hone.1 rest
  have hend := hone.2 q rest _ c (node_reindent [] hhead h)
  obtain ⟨taken, rest₁, hu, rfl, -, hreads⟩ :=
    local_node_of_ne indent' hhead q _ c (node_reindent indent' hhead h)
  obtain rfl : rest₁ = rest := hend
  obtain rfl : taken = body ++ ['\n'] := by
    have happend : taken ++ rest₁ = (body ++ ['\n']) ++ rest₁ := by simp [← hu]
    exact List.append_cancel_right happend
  exact ⟨by simp, hreads rest' hrest⟩

/-- A node on the last line. -/
theorem reads_lastLine (hhead : body.head? ≠ some ':') (hbreak : '\n' ∉ body)
    (h : node p block indent ⟨q, body, 0, 0⟩ = .ok n c) (indent' : Text) :
    c = ⟨body.reverse ++ q, [], 0, 0⟩ ∧
      Reads (node p block indent') body { n with indent := indent' } [] := by
  obtain ⟨taken, rest, rfl, rfl, hends, hreads⟩ :=
    local_node_of_ne indent' hhead q _ c (node_reindent indent' hhead h)
  obtain rfl : rest = [] := by
    by_contra hne
    exact hbreak (List.mem_append_left _ (hends hne))
  rw [List.append_nil]
  exact ⟨rfl, hreads [] (.inr rfl)⟩

/-- Nodes with the same content, whose indentations stand in the relation `ρ`. -/
structure Shifted (ρ : Nat → Nat → Prop) (n n' : Node) : Prop where
  unindented : n'.unindented = n.unindented
  depth : ρ n.depth n'.depth
  indent : squeeze n.indent = []
  indent' : squeeze n'.indent = []

theorem Shifted.content_eq {n n' : Node} (h : Shifted ρ n n') : n'.content = n.content := by
  have hsame := congrArg Node.content h.unindented
  exact hsame

theorem Shifted.newlines_eq {n n' : Node} (h : Shifted ρ n n') : n'.newlines = n.newlines := by
  have hsame := congrArg Node.newlines h.unindented
  exact hsame

theorem squeeze_uniform (hb : ∀ x ∈ b, Text.isIndent x = true) : squeeze (uniform b) = [] :=
  squeeze_eq_nil fun x hx => Text.isBlank_of_isIndent (isIndent_uniform hb x hx)

theorem shifted_uniform {b' : Text} (hb : ∀ x ∈ b, Text.isIndent x = true)
    (hb' : ∀ x ∈ b', Text.isIndent x = true) (hρ : ρ b.length b'.length)
    (hn : n.indent = uniform b) : Shifted ρ n { n with indent := uniform b' } where
  unindented := rfl
  depth := by
    have hdepth : n.depth = b.length := (congrArg List.length hn).trans (length_uniform b)
    show ρ n.depth (uniform b').length
    rw [hdepth, length_uniform]
    exact hρ
  indent := hn ▸ squeeze_uniform hb
  indent' := squeeze_uniform hb'

theorem shifted_addNewlines {read read' : List Node} (k : Nat)
    (h : List.Forall₂ (Shifted ρ) read read') :
    List.Forall₂ (Shifted ρ) (addNewlines k read) (addNewlines k read') := by
  cases h with
  | nil => exact .nil
  | @cons n n' _ _ hn hrest =>
    refine .cons ⟨?_, hn.depth, hn.indent, hn.indent'⟩ hrest
    have hsame := hn.unindented
    obtain ⟨indent, content, newlines⟩ := n
    obtain ⟨indent', content', newlines'⟩ := n'
    simp only [unindented, mk.injEq] at hsame ⊢
    simp [hsame]

theorem nodes_of_all_end {steps : Text} {read nodes : List Node}
    (hb : ∀ x ∈ b, Text.isIndent x = true)
    (h : all p block steps read ⟨q, b, 0, 0⟩ = .ok nodes c) : nodes = read.reverse := by
  have hne : steps ≠ [] := by
    rintro rfl
    cases h
  rw [all_end hb read q hne] at h
  cases h
  rfl

/-- The loops over the nodes of two aligned templates go side by side. -/
theorem all_aligned (h : Aligned p ρ t t') {steps steps' : Text} {read read' nodes : List Node}
    (hsteps : t'.length < steps'.length) (hread : List.Forall₂ (Shifted ρ) read read')
    (hall : all p (compile p) steps read ⟨q, t, 0, 0⟩ = .ok nodes c) (q' : Text) :
    ∃ nodes' c', all p (compile p) steps' read' ⟨q', t', 0, 0⟩ = .ok nodes' c' ∧
      List.Forall₂ (Shifted ρ) nodes nodes' := by
  induction h generalizing steps steps' read read' q q' with
  | @blank b hb =>
    obtain rfl := nodes_of_all_end hb hall
    have hne := List.ne_nil_of_length_pos (Nat.zero_lt_of_lt hsteps)
    exact ⟨_, _, all_end hb read' q' hne, List.rel_reverse hread⟩
  | @last b b' body hb hb' hρ hbody hbreak hone =>
    obtain ⟨y, steps', rfl⟩ := List.exists_cons_of_length_pos (Nat.zero_lt_of_lt hsteps)
    cases steps with
    | nil => cases hall
    | cons x steps =>
      rw [all_line x steps read hb hbody] at hall
      obtain ⟨n, c₁, hn, hall⟩ := exists_of_bind_eq_ok hall
      obtain ⟨rfl, hreads⟩ := reads_lastLine hone.1 hbreak hn (uniform b')
      have hnil : ∀ x ∈ ([] : Text), Text.isIndent x = true := by simp
      obtain rfl := nodes_of_all_end hnil hall
      have hn' := hreads (b'.reverse ++ q')
      rw [List.append_nil] at hn'
      have hne : steps' ≠ [] := by
        rintro rfl
        obtain ⟨z, v, rfl, -⟩ := hbody
        simp at hsteps
      rw [all_line y steps' read' hb' hbody, bind_of_ok hn']
      have hshifted := shifted_uniform hb hb' hρ (indent_of_node hn)
      exact ⟨_, _, all_end hnil _ _ hne,
        List.rel_reverse (.cons hshifted (shifted_addNewlines 0 hread))⟩
  | @blankRow b t t' hb h ih =>
    have hne : steps ≠ [] := by
      rintro rfl
      cases hall
    rw [all_blank hb read t q hne] at hall
    rw [all_blank hb read' t' q' (List.ne_nil_of_length_pos (Nat.zero_lt_of_lt hsteps))]
    apply ih _ (shifted_addNewlines 1 hread) hall
    simp only [List.length_append, List.length_cons] at hsteps
    omega
  | @row b b' body t t' hb hb' hρ hbody hone h ih =>
    have hstarts : ∀ r, StartsLine (body ++ '\n' :: r) := by
      obtain ⟨z, v, rfl, hz⟩ := hbody
      exact fun r => ⟨z, v ++ '\n' :: r, rfl, hz⟩
    obtain ⟨y, steps', rfl⟩ := List.exists_cons_of_length_pos (Nat.zero_lt_of_lt hsteps)
    cases steps with
    | nil => cases hall
    | cons x steps =>
      rw [all_line x steps read hb (hstarts t)] at hall
      obtain ⟨n, c₁, hn, hall⟩ := exists_of_bind_eq_ok hall
      obtain ⟨rfl, hreads⟩ := reads_oneLine hone hn h.loose (uniform b')
      have hn' := hreads (b'.reverse ++ q')
      rw [List.append_assoc, List.singleton_append] at hn'
      rw [all_line y steps' read' hb' (hstarts t'), bind_of_ok hn']
      have hshifted := shifted_uniform hb hb' hρ (indent_of_node hn)
      apply ih _ (.cons hshifted (shifted_addNewlines 0 hread)) hall
      simp only [List.length_append, List.length_cons] at hsteps
      omega

/-- Aligned templates have corresponding nodes. -/
theorem readNodes_aligned (h : Aligned p ρ t t') {nodes : List Node}
    (hnodes : readNodes p (compile p) t = .ok nodes) :
    ∃ nodes', readNodes p (compile p) t' = .ok nodes' ∧ List.Forall₂ (Shifted ρ) nodes nodes' := by
  rw [readNodes] at hnodes
  split at hnodes
  · next nodes₁ c hall =>
    cases hnodes
    have hsteps : t'.length < (' ' :: t').length := by simp
    obtain ⟨nodes', c', hall', hlike⟩ := all_aligned h hsteps .nil hall []
    refine ⟨nodes', ?_, hlike⟩
    rw [readNodes, Cursor.ofText, hall']
  · cases hnodes

end Node

/-! ## Trees and markup of aligned templates -/

def InOrder (ρ : Nat → Nat → Prop) : Prop :=
  ∀ a b a' b', ρ a a' → ρ b b' → (a < b ↔ a' < b') ∧ (a = b ↔ a' = b')

theorem InOrder.symm (h : InOrder ρ) : InOrder fun a b => ρ b a := by
  intro a b a' b' ha hb
  obtain ⟨hlt, heq⟩ := h a' b' a b ha hb
  exact ⟨hlt.symm, heq.symm⟩

theorem inOrder_of_strictMono {f : Nat → Nat} (hf : StrictMono f) : InOrder fun a b => b = f a := by
  rintro a b _ _ rfl rfl
  exact ⟨hf.lt_iff_lt.symm, hf.injective.eq_iff.symm⟩

namespace Forest

theorem goesBelow_shifted (hρ : InOrder ρ) {tags : Tags} {n n' m m' : Node}
    (hn : Node.Shifted ρ n n') (hm : Node.Shifted ρ m m') :
    tags.goesBelow n' m' = tags.goesBelow n m := by
  obtain ⟨hlt, heq⟩ := hρ _ _ _ _ hn.depth hm.depth
  have hbeq : (n'.depth == m'.depth) = (n.depth == m.depth) := by
    rw [Bool.eq_iff_iff, beq_iff_eq, beq_iff_eq, heq]
  simp only [Tags.goesBelow, hn.content_eq, hm.content_eq, hbeq, hlt]

theorem squeezed_faces_shifted {n n' : Node} (h : Node.Shifted ρ n n') (hasChildren : Bool) :
    (n'.faces p hasChildren).map Faces.squeezed = (n.faces p hasChildren).map Faces.squeezed := by
  rw [Node.faces, Node.faces, Content.squeezed_faces_indent p _ _ _ h.indent',
    Content.squeezed_faces_indent p _ _ _ h.indent, h.content_eq, Node.breaks, Node.breaks,
    h.newlines_eq]

/-- The markup of forests that are alike differs in its blanks only. -/
theorem essence_shifted {f g : Forest Node} (h : Like (Node.Shifted ρ) f g) :
    g.essence p = f.essence p := by
  induction h with
  | nil => rfl
  | @cons n n' below others below' others' hn hbelow _ ihb iho =>
    rw [essence, essence, hbelow.isEmpty_eq, squeezed_faces_shifted hn, hn.content_eq, ihb, iho]

end Forest

/-- Aligned templates have trees of the same shape. -/
theorem parse_aligned (hρ : InOrder ρ) (h : Aligned p ρ t t') {f : Forest Node}
    (hf : parse p t = .ok f) :
    ∃ g, parse p t' = .ok g ∧ Forest.Like (Node.Shifted ρ) f g := by
  obtain ⟨nodes, hnodes, hf⟩ := bind_eq_ok hf
  cases hf
  obtain ⟨nodes', hnodes', hlike⟩ := Node.readNodes_aligned h hnodes
  refine ⟨Forest.ofNodes p.tags nodes', ?_, Forest.like_ofNodes hlike ?_⟩
  · rw [parse, hnodes']
    rfl
  · intro a b n m hab hnm
    exact Forest.goesBelow_shifted hρ hab hnm

/-- Aligned templates are accepted alike. -/
theorem compile_aligned (hρ : InOrder ρ) (h : Aligned p ρ t t') {html : Text}
    (hc : compile p t = .ok html) :
    ∃ html', compile p t' = .ok html' ∧
      (p.settings.outline = false → squeeze html' = squeeze html) := by
  rw [compile_eq] at hc
  obtain ⟨f, hf, hfinish⟩ := bind_eq_ok hc
  obtain ⟨g, hg, hlike⟩ := parse_aligned hρ h hf
  rw [compile_eq, hg]
  show ∃ html', finish p g = .ok html' ∧ _
  cases hp : p.settings.outline with
  | true => exact ⟨g.outline, by rw [finish, if_pos hp], nofun⟩
  | false =>
    rw [finish_eq_render hp] at hfinish ⊢
    have hsame : (g.render p).map squeeze = .ok (squeeze html) := by
      rw [Forest.squeeze_render, Forest.essence_shifted hlike, ← Forest.squeeze_render, hfinish]
      rfl
    cases hrender : g.render p with
    | error e =>
      rw [hrender] at hsame
      cases hsame
    | ok html' =>
      rw [hrender] at hsame
      exact ⟨html', rfl, fun _ => Except.ok.inj hsame⟩

/-- A template whose nodes stand on one line each is accepted or refused alike with all indentations
in the same order. It has the same tree apart from the indentations, and the same markup without its
blanks. -/
theorem reindent_transparent {f : Nat → Nat} (hf : StrictMono f) (h : OneLiners p t) :
    (parse p (reindent f t)).toOption.map (Forest.map Node.unindented) =
      (parse p t).toOption.map (Forest.map Node.unindented) ∧
    (compile p (reindent f t)).isOk = (compile p t).isOk ∧
    (p.settings.outline = false →
      (compile p (reindent f t)).toOption.map squeeze = (compile p t).toOption.map squeeze) := by
  have haligned := aligned_reindent f h
  have horder := inOrder_of_strictMono hf
  refine ⟨?_, ?_⟩
  · cases ht : parse p t with
    | ok g =>
      obtain ⟨g', hg', hlike⟩ := parse_aligned horder haligned ht
      rw [hg']
      exact congrArg some (hlike.map_eq fun _ _ hab => hab.unindented)
    | error e =>
      cases ht' : parse p (reindent f t) with
      | error e' => rfl
      | ok g' =>
        obtain ⟨g, hg, -⟩ := parse_aligned horder.symm haligned.symm ht'
        rw [hg] at ht
        cases ht
  · cases ht : compile p t with
    | ok html =>
      obtain ⟨html', hhtml', hsame⟩ := compile_aligned horder haligned ht
      rw [hhtml']
      exact ⟨rfl, fun hp => congrArg some (hsame hp)⟩
    | error e =>
      cases ht' : compile p (reindent f t) with
      | error e' => exact ⟨rfl, fun _ => rfl⟩
      | ok html' =>
        obtain ⟨html, hhtml, -⟩ := compile_aligned horder.symm haligned.symm ht'
        rw [hhtml] at ht
        cases ht

def isOneLine (p : Profile) (body : Text) : Bool :=
  match Node.node p (compile p) [] (.ofText (body ++ ['\n', ' '])) with
  | .ok _ c => body.head? != some ':' && c.rest == [' ']
  | .error _ _ => false

/-- A line that is read so once is read so whatever follows it. -/
theorem oneLine_of_isOneLine {body : Text} (h : isOneLine p body = true) : OneLine p body := by
  unfold isOneLine at h
  split at h
  · next n c hn =>
    simp only [Bool.and_eq_true, bne_iff_ne, beq_iff_eq] at h
    refine ⟨h.1, ?_⟩
    intro q rest n' c' hread
    obtain ⟨taken, rest₁, hu, rfl, -, hreads⟩ :=
      Node.local_node_of_ne [] (Node.head?_append_break h.1 [' ']) [] n c hn
    obtain rfl : rest₁ = [' '] := h.2
    obtain rfl : taken = body ++ ['\n'] := by
      have happend : taken ++ [' '] = (body ++ ['\n']) ++ [' '] := by simp [← hu]
      exact List.append_cancel_right happend
    have hsame := hreads rest (.inl (by simp)) q
    rw [List.append_assoc, List.singleton_append, hread] at hsame
    cases hsame
    rfl
  · cases h

def indented : Text :=
  "-if a\n\t%p\x7bb: 'c'\x7d\n\n\t\t=d\n-else\n    #e.f> g\n".toList

theorem reindent_transparent_indented :
    reindent (fun n => 3 * n + 1) indented =
      " -if a\n    %p\x7bb: 'c'\x7d\n\n       =d\n -else\n             #e.f> g\n".toList ∧
    (compile {} (reindent (fun n => 3 * n + 1) indented)).toOption.map squeeze =
      some ("\x7b%ifa%\x7d<pb='c'>\x7b\x7bd\x7d\x7d</p>\x7b%else%\x7d" ++
        "<divclass='f'id='e'>g</div>\x7b%endif%\x7d").toList := by
  have hrows : ∀ row ∈ indented.lines, row.dropWhile Text.isIndent ≠ [] →
      isOneLine {} (row.dropWhile Text.isIndent) = true := by
    decide +kernel
  have hone : OneLiners {} indented := fun row hrow hne =>
    oneLine_of_isOneLine (hrows row hrow hne)
  have hmono : StrictMono fun n : Nat => 3 * n + 1 := by
    intro a b hab
    dsimp only
    omega
  refine ⟨by decide +kernel, ?_⟩
  rw [(reindent_transparent hmono hone).2.2 rfl]
  decide +kernel

/-- Outlines show how far the nodes are indented. -/
theorem outline_reindented :
    compile { settings := { outline := true } } "a".toList =
      .ok " Node\n  PlaintextNode(indent=0, newlines=0): a".toList ∧
    compile { settings := { outline := true } } (reindent (· + 1) "a".toList) =
      .ok " Node\n   PlaintextNode(indent=1, newlines=0): a".toList ∧
    squeeze " Node\n   PlaintextNode(indent=1, newlines=0): a".toList ≠
      squeeze " Node\n  PlaintextNode(indent=0, newlines=0): a".toList := by
  decide +kernel

end Haml
