import Haml.Proofs.Forest.Insertion
import Haml.Proofs.Markup.Essence
import Haml.Proofs.Reading.FilterNodes

/-!
Silent comments. A silent comment and the deeper lines below it are read like all other lines, and
they come to stand in the forest as one tree, which is not written. If these lines can be read, and
if no tag before the comment takes the node after it, then the comment changes nothing but blanks in
the markup.
-/
namespace Haml

/-! ## Forests without the numbers of blank lines -/

namespace Forest

variable {tags : Tags} {p : Profile} {c : Node} {f g : Forest Node}

theorem map_unspaced_add (tags : Tags) (n : Node) (f : Forest Node) :
    (f.add tags n).map Node.unspaced = (f.map Node.unspaced).add tags n.unspaced := by
  have hplace := map_place tags (fun m => m) n f
  rw [map_self, map_self] at hplace
  rw [← hplace, ← map_place tags Node.unspaced n f]
  rfl

theorem map_unspaced_ofNodes (tags : Tags) (nodes : List Node) :
    (ofNodes tags nodes).map Node.unspaced = ofNodes tags (nodes.map Node.unspaced) := by
  have hrun : ∀ f : Forest Node, (nodes.foldl (fun f n => f.add tags n) f).map Node.unspaced =
      (nodes.map Node.unspaced).foldl (fun f n => f.add tags n) (f.map Node.unspaced) := by
    induction nodes with
    | nil => exact fun f => rfl
    | cons n nodes ih =>
      intro f
      rw [List.foldl_cons, ih, map_unspaced_add]
      rfl
  exact hrun nil

theorem isEmpty_map {α β : Type} (h : α → β) (f : Forest α) : (f.map h).isEmpty = f.isEmpty := by
  cases f <;> rfl

/-- The numbers of blank lines are seen in the blanks of the markup only. -/
theorem essence_map_unspaced (p : Profile) (f : Forest Node) :
    (f.map Node.unspaced).essence p = f.essence p := by
  induction f with
  | nil => rfl
  | cons n below others ihb iho =>
    have hfaces : ∀ hasChildren, (n.unspaced.faces p hasChildren).map Faces.squeezed =
        (n.faces p hasChildren).map Faces.squeezed := by
      intro hasChildren
      have h := n.content.squeezed_faces p n.indent hasChildren n.squeeze_breaks
      have h' := n.content.squeezed_faces p n.indent hasChildren n.unspaced.squeeze_breaks
      exact h'.trans h.symm
    rw [map, essence, essence, isEmpty_map, hfaces, ihb, iho]
    rfl

/-- Forests of the same nodes have the same markup without blanks, wherever blank lines are. -/
theorem essence_congr {nodes nodes' : List Node}
    (h : nodes.map Node.unspaced = nodes'.map Node.unspaced) :
    (ofNodes tags nodes).essence p = (ofNodes tags nodes').essence p := by
  rw [← essence_map_unspaced, map_unspaced_ofNodes, h, ← map_unspaced_ofNodes,
    essence_map_unspaced]

theorem inert_silent {line : Text} (h : c.content = .silent line) : Inert tags c := by
  constructor
  · intro m
    rw [h]
    rfl
  · intro m
    rw [h]
    cases m.content <;> rfl

/-- The tree of a silent comment is not seen. -/
theorem Inserted.essence_eq {line : Text} (hc : c.content = .silent line) (h : Inserted c f g) :
    g.essence p = f.essence p := by
  induction h with
  | @here below others _ =>
    have hfaces : (c.faces p (!below.isEmpty)).map Faces.squeezed = .ok ([], []) := by
      have h := c.content.squeezed_faces p c.indent (!below.isEmpty) c.squeeze_breaks
      rw [hc] at h
      rw [Node.faces, hc, h]
      rfl
    have hshown : c.content.showsChildren = false := by
      rw [hc]
      rfl
    rw [essence, hfaces, hshown]
    cases others.essence p with
    | error e => rfl
    | ok t => rfl
  | @under a f g others h ih =>
    have hempty : g.isEmpty = f.isEmpty := by
      obtain ⟨hf, hg⟩ := h.ne_nil
      cases f with
      | nil => exact absurd rfl hf
      | cons _ _ _ =>
        cases g with
        | nil => exact absurd rfl hg
        | cons _ _ _ => rfl
    rw [essence, essence, hempty, ih]
  | after _ ih => rw [essence, essence, ih]

end Forest

/-! ## The text of a comment -/

/-- Lines that are blank or indented deeper than `depth`, each with its line break. -/
inductive Deeper (depth : Nat) : Text → Prop
  | nil : Deeper depth []
  | line (row : Text) {t : Text} (hrow : '\n' ∉ row)
      (hdeep : (∀ x ∈ row, Text.isIndent x = true) ∨
        depth < (row.takeWhile Text.isIndent).length)
      (h : Deeper depth t) : Deeper depth (row ++ '\n' :: t)

/-- The line of a silent comment that is indented by `depth`, and deeper lines after it. -/
inductive SilentBlock (depth : Nat) : Text → Prop
  | intro (indent text : Text) {body : Text} (hindent : ∀ x ∈ indent, Text.isIndent x = true)
      (hdepth : indent.length = depth) (htext : '\n' ∉ text) (hbody : Deeper depth body) :
      SilentBlock depth (indent ++ '-' :: '#' :: text ++ '\n' :: body)

theorem Deeper.append {depth : Nat} {t u : Text} (h : Deeper depth t) (h' : Deeper depth u) :
    Deeper depth (t ++ u) := by
  induction h with
  | nil => exact h'
  | line row hrow hdeep _ ih =>
    rw [List.append_assoc]
    exact .line row hrow hdeep ih

theorem SilentBlock.append {depth : Nat} {t u : Text} (h : SilentBlock depth t)
    (h' : Deeper depth u) : SilentBlock depth (t ++ u) := by
  obtain @⟨indent, text, body, hindent, hdepth, htext, hbody⟩ := h
  rw [List.append_assoc]
  exact .intro indent text hindent hdepth htext (hbody.append h')

/-- Deeper lines without the first ones of them. -/
theorem Deeper.drop {depth : Nat} {t u : Text} (h : Deeper depth (t ++ u))
    (ht : t = [] ∨ t.getLast? = some '\n') : Deeper depth u := by
  generalize htext : t ++ u = v at h
  induction h generalizing t with
  | nil =>
    obtain ⟨_, rfl⟩ := List.append_eq_nil_iff.mp htext
    exact .nil
  | line row hrow hdeep h ih =>
    rcases ht with rfl | hlast
    · rw [List.nil_append] at htext
      rw [htext]
      exact .line row hrow hdeep h
    · have hmem : '\n' ∈ t := List.mem_of_getLast? hlast
      rcases List.append_eq_append_iff.mp htext with ⟨w', hrow', _⟩ | ⟨w', ht', hw⟩
      · -- the first lines would end within the row
        exact absurd (hrow' ▸ List.mem_append_left _ hmem) hrow
      · cases w' with
        | nil =>
          rw [List.append_nil] at ht'
          exact absurd (ht' ▸ hmem) hrow
        | cons y w' =>
          obtain ⟨rfl, hw'⟩ := List.cons_eq_cons.mp hw
          refine ih ?_ hw'.symm
          cases w' with
          | nil => exact .inl rfl
          | cons z w' =>
            right
            rw [ht'] at hlast
            simpa using hlast

/-- The first of deeper lines is deeper, unless it is blank. -/
theorem Deeper.lt_length {depth : Nat} {b u : Text} (h : Deeper depth (b ++ u))
    (hb : ∀ x ∈ b, Text.isIndent x = true) (hu : Node.StartsLine u) : depth < b.length := by
  obtain ⟨x, v, rfl, hx, hbreak⟩ := hu
  generalize htext : b ++ x :: v = w at h
  cases h with
  | nil => simp at htext
  | line row hrow hdeep _ =>
    have hmargin : (b ++ x :: v).takeWhile Text.isIndent = b := by
      rw [List.takeWhile_append_of_pos hb]
      simp [hx]
    rw [htext] at hmargin
    rcases hdeep with hblank | hlt
    · rw [List.takeWhile_append_of_pos hblank] at hmargin
      obtain rfl : row = b := by simpa [Text.isIndent] using hmargin
      obtain ⟨rfl, _⟩ := List.cons_eq_cons.mp (List.append_cancel_left htext)
      exact absurd rfl hbreak
    · have hle : (row.takeWhile Text.isIndent).length ≤ b.length := by
        rw [← hmargin, List.takeWhile_append]
        split
        · next hall => rw [hall, List.length_append]; omega
        · exact Nat.le_refl _
      omega

namespace Node

open Reader

variable {p : Profile} {block : Text → Except Failure Text}

/-- Blank lines count as deeper than any. -/
theorem Series.deeper_of_nil {t rest : Text} (depth : Nat) (h : Series p block t [] rest) :
    Deeper depth t := by
  generalize hns : ([] : List Node) = ns at h
  induction h with
  | nil => exact .nil
  | blank hb _ ih =>
    refine .line _ (fun hbreak => ?_) (.inl hb) (ih hns)
    cases hb _ hbreak
  | node => cases hns

/-- The nodes on deeper lines are indented deeper. -/
theorem Series.deeper {depth : Nat} {t rest : Text} {ns : List Node}
    (h : Series p block t ns rest) (hrest : rest ≠ []) (hdeep : Deeper depth t) :
    ∀ m ∈ ns, depth < m.depth := by
  induction h with
  | nil => simp
  | @blank b t rest ns hb _ ih =>
    rw [List.append_cons] at hdeep
    exact ih hrest (hdeep.drop (.inr (by simp)))
  | @node t u rest n ns hn _ ih =>
    have hlast := (break_of_reads hn).2 (by simp [hrest])
    intro m hm
    rcases List.mem_cons.mp hm with rfl | hm
    · obtain ⟨b, v, hb, rfl, ⟨x, w, hv, hx⟩, hindent⟩ := margin_of_reads hn
      have hlength : m.depth = b.length := (congrArg List.length hindent).trans (length_uniform b)
      rw [List.append_assoc] at hdeep
      rw [hlength]
      exact hdeep.lt_length hb ⟨x, w ++ u, by simp [hv], hx⟩
    · exact ih hrest (hdeep.drop (.inr hlast)) m hm

/-- A row that starts no filter and no element. -/
def Single (row : Text) : Prop :=
  '\n' ∉ row ∧
    row.head?.any (fun x => !Text.isIndent x && !":%#.".toList.contains x) = true

instance : DecidablePred Single := fun _ => inferInstanceAs (Decidable (_ ∧ _))

theorem Single.exists_cons {row : Text} (h : Single row) :
    ∃ x v, row = x :: v ∧ Text.isIndent x = false ∧ x ≠ '\n' ∧
      x ≠ ':' ∧ x ≠ '%' ∧ x ≠ '#' ∧ x ≠ '.' := by
  obtain ⟨hbreak, hstart⟩ := h
  cases row with
  | nil => cases hstart
  | cons x v =>
    refine ⟨x, v, rfl, ?_, fun h => hbreak (by simp [h]), ?_⟩
    · simpa using (Bool.and_eq_true_iff.mp hstart).1
    · simpa using (Bool.and_eq_true_iff.mp hstart).2

/-- Such a row is what it is taken for as a line, whether a break ends it or not. -/
theorem reads_node_line {indent row u rest : Text} {content : Content} (h : Single row)
    (hline : ofLine p row = .ok content) (hrow : row <+: u ++ rest)
    (hread : Reads line u row rest) :
    Reads (node p block indent) u { indent := indent, content := content } rest := by
  obtain ⟨x, v, rfl, _, _, hmark⟩ := h.exists_cons
  obtain ⟨w, hw⟩ := hrow
  have hhead : (u ++ rest).head? = some x := by
    rw [← hw]
    rfl
  apply (reads_peek hhead).look
  apply Reads.ite_neg hmark.1
  intro q
  have hstarts : startsElement ⟨q, u ++ rest, 0, 0⟩ = false := by
    simp [startsElement, Cursor.ahead, ← hw, hmark]
  have hget : (get : Reader Cursor) ⟨q, u ++ rest, 0, 0⟩ =
      .ok ⟨q, u ++ rest, 0, 0⟩ ⟨q, u ++ rest, 0, 0⟩ := rfl
  rw [bind_of_ok hget, hstarts, if_neg (by simp), bind_of_ok (hread q), hline]
  rfl

theorem reads_single {indent row : Text} {content : Content} (h : Single row)
    (hline : ofLine p row = .ok content) (rest : Text) :
    Reads (node p block indent) (row ++ ['\n']) { indent := indent, content := content } rest :=
  reads_node_line h hline ⟨'\n' :: rest, by simp⟩ (reads_line h.1 rest)

theorem reads_row {indent row : Text} {content : Content}
    (hindent : ∀ x ∈ indent, Text.isIndent x = true) (h : Single row)
    (hline : ofLine p row = .ok content) (rest : Text) :
    Reads (next p block) (indent ++ (row ++ ['\n']))
      (0, some { indent := uniform indent, content := content }) rest := by
  have hstart : StartsLine (row ++ ['\n'] ++ rest) := by
    obtain ⟨x, v, rfl, hx, hbreak, _⟩ := h.exists_cons
    exact ⟨x, v ++ ['\n'] ++ rest, by simp, hx, hbreak⟩
  intro q
  have hnode : Reads (node p block (uniform indent)) (row ++ ['\n'])
      { indent := uniform indent, content := content } rest := reads_single h hline rest
  rw [List.append_assoc, next_line hindent hstart, bind_of_ok (hnode (indent.reverse ++ q))]
  simp [pure, EStateM.pure]

theorem ofLine_silent (p : Profile) (text : Text) :
    ofLine p ('-' :: '#' :: text) = .ok (.silent (Text.trimRight ('-' :: '#' :: text))) := by
  cases text <;> rfl

theorem single_silent {text : Text} (h : '\n' ∉ text) : Single ('-' :: '#' :: text) :=
  ⟨by simpa using h, rfl⟩

/-- The nodes of a silent comment: the comment itself, and others that are indented deeper. -/
theorem Series.silentBlock {depth : Nat} {t rest : Text} {ns : List Node}
    (h : Series p block t ns rest) (hrest : rest ≠ []) (ht : SilentBlock depth t) :
    ∃ c deeper line, ns = c :: deeper ∧ c.content = .silent line ∧ c.depth = depth ∧
      ∀ m ∈ deeper, c.depth < m.depth := by
  obtain @⟨indent, text, body, hindent, hdepth, htext, hbody⟩ := ht
  rw [List.append_assoc, List.append_cons _ '\n' body, ← List.append_assoc] at h
  have hread : Reads (next p block) (indent ++ (('-' :: '#' :: text) ++ ['\n'])) _ (body ++ rest) :=
    reads_row hindent (single_silent htext) (ofLine_silent p text) _
  obtain ⟨deeper, rfl, hseries⟩ := h.tail hread
  have hc : (uniform indent).length = depth := (length_uniform indent).trans hdepth
  refine ⟨_, deeper, _, rfl, rfl, hc, fun m hm => ?_⟩
  have hlt := hseries.deeper hrest hbody m hm
  rwa [← hc] at hlt

/-- Before a silent comment end the filters that end before a node of its indentation. -/
theorem far_silentBlock {t u : Text} {k : Nat} {n : Node} {c : Cursor}
    (ht : SilentBlock n.depth t) (hnext : next p block (.ofText u) = .ok (k, some n) c) :
    Far u (t ++ u) := by
  have hmargin : margin? (t ++ u) = .ok (some n.depth) := by
    obtain ⟨_, _, hindent, hdepth, _, _⟩ := ht
    rw [List.append_assoc, List.append_assoc, margin?_append hindent, ← hdepth]
    simp [margin?, Text.isBlank, Text.isWhite, Except.map]
  right
  constructor
  · rintro rfl
    cases hnext
  · intro depth hstop
    rcases hstop with rfl | ⟨m, hle, hm⟩
    · cases hnext
    · refine .inr ⟨n.depth, ?_, hmargin⟩
      rcases ahead_cases u with hblank | ⟨b, v, hb, rfl⟩ | ⟨b, v, hb, rfl, hv⟩
      · have hend : Reads (next p block) u (0, none) [] := next_end hblank
        have hnone := hend []
        rw [List.append_nil] at hnone
        rw [Cursor.ofText, hnone] at hnext
        cases hnext
      · rw [margin?_append hb] at hm
        cases hm
      · rw [Cursor.ofText, next_line hb hv] at hnext
        obtain ⟨m', c', hnode, hr⟩ := exists_of_bind_eq_ok hnext
        cases hr
        have hlength : n.depth = b.length :=
          (congrArg List.length (indent_of_node hnode)).trans (length_uniform b)
        have := length_le_of_margin? hb hm
        omega

end Node

/-- Lines that are blank or hold one node each, whatever comes before and after them. -/
inductive Rows (p : Profile) : Text → Prop
  | nil : Rows p []
  | blank (b : Text) {t : Text} (hb : ∀ x ∈ b, Text.isIndent x = true) (h : Rows p t) :
      Rows p (b ++ '\n' :: t)
  | single (indent row : Text) {t : Text} {content : Content}
      (hindent : ∀ x ∈ indent, Text.isIndent x = true) (hrow : Node.Single row)
      (hline : Node.ofLine p row = .ok content) (h : Rows p t) :
      Rows p (indent ++ (row ++ '\n' :: t))

/-- Such lines are read as whole nodes everywhere. -/
theorem Rows.series {p : Profile} {t : Text} (h : Rows p t) (block : Text → Except Failure Text)
    (rest : Text) : ∃ ns, Node.Series p block t ns rest := by
  induction h with
  | nil => exact ⟨[], .nil⟩
  | blank b hb _ ih =>
    obtain ⟨ns, hns⟩ := ih
    exact ⟨ns, .blank hb hns⟩
  | @single indent row t content hindent hrow hline _ ih =>
    obtain ⟨ns, hns⟩ := ih
    have hread : Reader.Reads (Node.next p block) (indent ++ (row ++ ['\n'])) _ (t ++ rest) :=
      Node.reads_row hindent hrow hline (t ++ rest)
    have hseries := Node.Series.node hread hns
    rw [List.append_assoc, List.append_assoc, List.singleton_append] at hseries
    exact ⟨_, hseries⟩

/-! ## Comments in a template -/

theorem finish_eq_render {p : Profile} (h : p.settings.outline = false) (f : Forest Node) :
    finish p f = f.render p := by
  rw [finish, h]
  rfl

/-- The nodes of a text that starts with a series are those of the series and of what follows it. -/
theorem Node.series_of_readNodes {p : Profile} {block : Text → Except Failure Text} {A B : Text}
    {before nodes : List Node} (hA : Series p block A before B)
    (h : readNodes p block (A ++ B) = .ok nodes) :
    ∃ t b ns, B = t ++ b ∧ (∀ x ∈ b, Text.isIndent x = true) ∧ Series p block t ns b ∧
      nodes.map unspaced = (before ++ ns).map unspaced := by
  obtain ⟨steps, read, _, hread, hall⟩ := all_series hA (' ' :: (A ++ B)) (by simp) [] []
  rw [readNodes, Cursor.ofText, hall] at h
  cases hrest : all p block steps read ⟨A.reverse ++ [], B, 0, 0⟩ with
  | error e c =>
    rw [hrest] at h
    cases h
  | ok nodes' c =>
    rw [hrest] at h
    cases h
    obtain ⟨t, b, ns, rfl, hb, hns, hnodes⟩ := series_of_all hrest
    refine ⟨t, b, ns, rfl, hb, hns, ?_⟩
    rw [hnodes, List.map_append, List.map_reverse, hread]
    simp

/-- A silent comment between two nodes changes nothing but blanks in the markup, if its lines are
read as whole nodes, perhaps with blank lines after it, and if the node after it is not taken by a
tag before it. -/
theorem comment_transparent {p : Profile} {A gap B C html : Text} {before inside : List Node}
    {n : Node} {blanks : Nat} {c : Cursor} (hp : p.settings.outline = false)
    (hAB : compile p (A ++ (gap ++ B)) = .ok html)
    (hA : Node.Series p (compile p) A before (gap ++ B))
    (hgap : Node.Series p (compile p) gap [] B)
    (hn : Node.next p (compile p) (.ofText (gap ++ B)) = .ok (blanks, some n) c)
    (hC : SilentBlock n.depth C)
    (hin : Node.Series p (compile p) (C ++ gap) inside B)
    (haside : (Forest.ofNodes p.tags before).takesAside p.tags n = false) :
    ∃ html', compile p (A ++ C ++ (gap ++ B)) = .ok html' ∧ squeeze html' = squeeze html := by
  have hblock : SilentBlock n.depth (C ++ gap) := hC.append (hgap.deeper_of_nil _)
  -- the nodes of the template without the comment
  rw [compile_eq] at hAB
  obtain ⟨f, hparse, hfinish⟩ := bind_eq_ok hAB
  obtain ⟨nodes, hnodes, hf⟩ := bind_eq_ok hparse
  cases hf
  rw [finish_eq_render hp] at hfinish
  rw [← List.append_assoc] at hnodes
  obtain ⟨t, b, ns, rfl, hb, hns, hsame⟩ := Node.series_of_readNodes (hA.append hgap) hnodes
  rw [List.append_nil] at hsame
  have hfirst : some n = ns.head? := by
    have hrest : Node.Series p (compile p) (gap ++ t) ([] ++ ns) b := hgap.append hns
    rw [← List.append_assoc] at hn
    exact hrest.first hb hn
  obtain ⟨after, rfl⟩ : ∃ after, ns = n :: after := by
    cases ns with
    | nil => cases hfirst
    | cons m ns =>
      cases hfirst
      exact ⟨ns, rfl⟩
  have hB : t ++ b ≠ [] := by simp [hns.ne_nil]
  -- the nodes of the template with the comment
  have hseries : Node.Series p (compile p) (A ++ (C ++ gap ++ t)) (before ++ (inside ++ n :: after))
      b := by
    have hfar := hA.far (by simp [hB]) (Node.far_silentBlock hC hn)
    have htext : C ++ (gap ++ (t ++ b)) = C ++ gap ++ t ++ b := by simp
    rw [htext] at hfar
    exact hfar.append (hin.append hns)
  obtain ⟨nodes', hnodes', hsame'⟩ := Node.readNodes_of_series hseries hb
  obtain ⟨m, deeper, line, rfl, hm, hdepth, hdeeper⟩ := hin.silentBlock hB hblock
  have hinserted : Forest.Inserted m (Forest.ofNodes p.tags (before ++ n :: after))
      (Forest.ofNodes p.tags (before ++ m :: deeper ++ n :: after)) :=
    Forest.inserted_ofNodes (Forest.inert_silent hm) hdepth hdeeper haside
  have hessence := calc (Forest.ofNodes p.tags nodes').essence p
      = (Forest.ofNodes p.tags (before ++ m :: deeper ++ n :: after)).essence p :=
        Forest.essence_congr (by rw [hsame', List.append_assoc])
    _ = (Forest.ofNodes p.tags (before ++ n :: after)).essence p := hinserted.essence_eq hm
    _ = (Forest.ofNodes p.tags nodes).essence p := (Forest.essence_congr hsame).symm
    _ = .ok (squeeze html) := by
      rw [← Forest.squeeze_render, hfinish]
      rfl
  rw [← Forest.squeeze_render] at hessence
  cases hrender : (Forest.ofNodes p.tags nodes').render p with
  | error e =>
    rw [hrender] at hessence
    cases hessence
  | ok html' =>
    rw [hrender] at hessence
    refine ⟨html', ?_, Except.ok.inj hessence⟩
    have htext : A ++ C ++ (gap ++ (t ++ b)) = A ++ (C ++ gap ++ t) ++ b := by simp
    rw [compile_eq, parse, htext, hnodes']
    exact (finish_eq_render hp _).trans hrender

/-- A comment in a list, with a line like an expression and a filter that takes the blank line after
the comment. -/
theorem comment_transparent_list :
    ∃ html', compile {} ("%ul\n".toList ++ "  -# a\n    =b\n    :plain\n      c\n".toList ++
        ("\n".toList ++ "  %li d\n".toList)) = .ok html' ∧
      squeeze html' = squeeze "<ul>\n\n  <li>d</li>\n</ul>\n".toList := by
  have hul : Reader.Reads (Node.next {} (compile {})) "%ul\n".toList
      (0, some ⟨[], .element ⟨"ul".toList, none, [], [], false, false, false, false, some [],
        by decide⟩, 0⟩)
      ([] ++ "\n  %li d\n".toList) := fun _ => rfl
  have hA : Node.Series {} (compile {}) ("%ul\n".toList ++ []) _ "\n  %li d\n".toList :=
    .node hul .nil
  have hgap : Node.Series {} (compile {}) ([] ++ '\n' :: []) [] "  %li d\n".toList :=
    .blank nofun .nil
  have hrows : Rows {} "  -# a\n    =b\n".toList := by
    apply Rows.single "  ".toList "-# a".toList (List.all_eq_true.mp (by decide)) (by decide) rfl
    exact .single "    ".toList "=b".toList (List.all_eq_true.mp (by decide)) (by decide) rfl .nil
  have hlines : ∀ l ∈ ["      c".toList, []], '\n' ∉ l ∧ Attribute.Fits (some 5) l := by
    refine List.forall_mem_cons.mpr ⟨⟨by decide, .inr (by decide)⟩, ?_⟩
    exact List.forall_mem_cons.mpr ⟨⟨by decide, .inl nofun⟩, nofun⟩
  have hends : Attribute.Ends (some 5) "  %li d\n".toList := .inr ⟨2, by decide, rfl⟩
  have hplain : Reader.Reads (Node.next {} (compile {}))
      ("    ".toList ++ ':' :: ("plain".toList ++ ['\n'] ++
        Text.endLines ["      c".toList, []])) _ ([] ++ "  %li d\n".toList) :=
    Node.reads_next_filter {} _ (List.all_eq_true.mp (by decide)) (by decide) hlines hends
  obtain ⟨inside, hinside⟩ :=
    hrows.series (compile {}) ("    :plain\n      c\n\n".toList ++ "  %li d\n".toList)
  have hdeeper : Deeper 2 "    =b\n    :plain\n      c\n".toList := by
    apply Deeper.line "    =b".toList (by decide) (.inr (by decide))
    apply Deeper.line "    :plain".toList (by decide) (.inr (by decide))
    exact .line "      c".toList (by decide) (.inr (by decide)) .nil
  exact comment_transparent rfl (by decide +kernel) hA hgap rfl
    (.intro "  ".toList " a".toList (List.all_eq_true.mp (by decide)) rfl (by decide) hdeeper)
    (hinside.append (.node hplain .nil)) rfl

/-- A silent comment may be put between the nodes of `A` and those of `B`. -/
def CommentBetween (A C B : Text) : Prop :=
  ∃ before n c, Node.Series {} (compile {}) A before B ∧
    Node.next {} (compile {}) (.ofText B) = .ok (0, some n) c ∧ SilentBlock n.depth C

/-- Comments that are seen: one that stands between a tag and another that belongs inside it, and
one with a line that is refused. -/
theorem comment_seen :
    (CommentBetween "-if a\n  b\n".toList "-# d\n".toList "-else\n  c".toList ∧
      compile {} ("-if a\n  b\n".toList ++ "-else\n  c".toList) =
        .ok "\x7b% if a %\x7d\n  b\n\x7b% else %\x7d\n  c\n\x7b% endif %\x7d\n".toList ∧
      compile {} ("-if a\n  b\n".toList ++ "-# d\n".toList ++ "-else\n  c".toList) =
        .ok "\x7b% if a %\x7d\n  b\n\x7b% endif %\x7d\n\x7b% else %\x7d\n  c\n".toList) ∧
    CommentBetween [] "-# d\n  -endif\n".toList "x".toList ∧
      compile {} "x".toList = .ok "x\n".toList ∧
      compile {} ("-# d\n  -endif\n".toList ++ "x".toList) =
        .error (.rejected (.closingTag "endif".toList) none) := by
  refine ⟨⟨?_, by decide +kernel⟩, ?_, by decide +kernel⟩
  · have hrows : Rows {} "-if a\n  b\n".toList := by
      apply Rows.single [] "-if a".toList nofun (by decide) rfl
      exact .single "  ".toList "b".toList (List.all_eq_true.mp (by decide)) (by decide) rfl .nil
    obtain ⟨before, hbefore⟩ := hrows.series (compile {}) "-else\n  c".toList
    exact ⟨before, _, _, hbefore, rfl, .intro [] " d".toList nofun rfl (by decide) .nil⟩
  · refine ⟨[], _, _, .nil, rfl, .intro [] " d".toList nofun rfl (by decide) ?_⟩
    exact .line "  -endif".toList (by decide) (.inr (by decide)) .nil

end Haml
