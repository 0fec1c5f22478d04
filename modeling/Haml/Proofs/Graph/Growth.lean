import Haml.Proofs.Graph.Links

/-!
The tree that grows when the nodes of a template are added to a root one after another. It is the
forest that a template is compiled from, with the nodes in their order, and the parent of each node
can be read off the indentations of the nodes before it.
-/
namespace Haml

namespace Dialect

/-- The inner tags of a dialect are no blocks with inner tags of their own. -/
theorem inner_get?_inner (d : Dialect) :
    ∀ row ∈ d.tags.inner, ∀ name ∈ row.2, d.tags.inner.get? name = none := by
  cases d <;> decide

/-- A tag that belongs inside a block takes no other tag at its own indentation. -/
theorem belongsIn_of_belongsIn {tags : Tags} {d : Dialect} (hd : tags.inner = d.tags.inner)
    {block tag next : Text} (h : tags.belongsIn block tag = true) (htag : tag ≠ [])
    (hnext : next ≠ []) : tags.belongsIn tag next = false := by
  have hnone : tags.inner.get? tag = none := by
    unfold Tags.belongsIn at h
    cases hb : tags.inner.get? block with
    | none =>
      rw [hb] at h
      exact absurd (List.isEmpty_iff.mp h) htag
    | some names =>
      rw [hb] at h
      unfold Dictionary.get? at hb
      obtain ⟨row, hfind, rfl⟩ := Option.map_eq_some_iff.mp hb
      rw [hd] at hfind ⊢
      exact inner_get?_inner d row (List.mem_of_find?_eq_some hfind) tag (by simpa using h)
  unfold Tags.belongsIn
  rw [hnone]
  simpa using hnext

end Dialect

namespace Graph

variable {tags : Tags} {nodes : List Node}

def contentAt (nodes : List Node) (i : Nat) : Option Content := (memberAt nodes i).body.map (·.2)

/-- `m` is the last member before `i` that is indented less. -/
structure Nearest (nodes : List Node) (m i : Nat) : Prop where
  before : m < i
  less : depthAt nodes m < depthAt nodes i
  last : ∀ j, m < j → j < i → depthAt nodes i ≤ depthAt nodes j

/-- `c` and `i` are tags of the same indentation, and `i` is listed as an inner tag of `c`. -/
def Lists (tags : Tags) (nodes : List Node) (c i : Nat) : Prop :=
  depthAt nodes c = depthAt nodes i ∧ ∃ block tag names,
    contentAt nodes c = some (.tag block) ∧ contentAt nodes i = some (.tag tag) ∧
      tags.inner.get? (tagName block) = some names ∧ tagName tag ∈ names

/-- The graphs `g n` that `n` nodes grow into are what the indentations of the nodes say. -/
structure Faithful (tags : Tags) (nodes : List Node) (g : Nat → Graph) : Prop where
  grown : ∀ n ≤ nodes.length, grow tags n (fresh nodes) = .ok () (g n)
  /-- The tree below the root has the nodes in their order, each once; it is the forest that a
  template is compiled from. -/
  preorder : ∃ f : Forest Nat, (g nodes.length).childrenOf 0 = f.roots ∧
    f.Hangs (g nodes.length).childrenOf ∧ f.toList = List.range' 1 nodes.length ∧
    f.map (nodeAt nodes) = Forest.ofNodes tags nodes
  /-- The parent of a member is the one that has it as a child. -/
  parents : ∀ i p, (g nodes.length).parentOf i = some p ↔ i ∈ (g nodes.length).childrenOf p
  /-- A node is below the nearest one that is indented less, or below the last child that this one
  had before if that child lists the node. -/
  nearest : ∀ i < nodes.length, ∃ m, Nearest nodes m (i + 1) ∧
    ((∃ c, ((g i).childrenOf m).getLast? = some c ∧ Lists tags nodes c (i + 1) ∧
        (g nodes.length).parentOf (i + 1) = some c) ∨
      ((∀ c, ((g i).childrenOf m).getLast? = some c → ¬ Lists tags nodes c (i + 1)) ∧
        (g nodes.length).parentOf (i + 1) = some m))

def Named (nodes : List Node) : Prop :=
  ∀ n ∈ nodes, ∀ line, n.content = .tag line → tagName line ≠ []

theorem tagName_ne_nil (hn : Named nodes) {i : Nat} {line : Text}
    (h : contentAt nodes i = some (.tag line)) : tagName line ≠ [] := by
  cases i with
  | zero => simp [contentAt, memberAt] at h
  | succ i =>
    cases hget : nodes[i]? with
    | none => simp [contentAt, memberAt, hget] at h
    | some n =>
      have hc : n.content = .tag line := by
        simpa [contentAt, memberAt, hget, Member.ofNode] using h
      exact hn n (List.mem_of_getElem? hget) line hc

/-- One number takes another exactly when both are tags that belong together. -/
theorem takesAt_iff {c i : Nat} : takesAt tags nodes c i = true ↔
    ∃ block tag, contentAt nodes c = some (.tag block) ∧ contentAt nodes i = some (.tag tag) ∧
      tags.belongsIn (tagName block) (tagName tag) = true := by
  unfold takesAt Member.takes contentAt
  cases (memberAt nodes c).body with
  | none => simp
  | some a =>
    cases (memberAt nodes i).body with
    | none => simp
    | some b =>
      obtain ⟨_, a⟩ := a
      obtain ⟨_, b⟩ := b
      cases a <;> cases b <;> simp [Tags.takes]

theorem lists_iff (hn : Named nodes) {c i : Nat} : Lists tags nodes c i ↔
    depthAt nodes c = depthAt nodes i ∧ takesAt tags nodes c i = true := by
  rw [takesAt_iff]
  refine and_congr_right fun _ => ⟨?_, ?_⟩
  · rintro ⟨block, tag, names, hc, hi, hnames, hmem⟩
    refine ⟨block, tag, hc, hi, ?_⟩
    simpa [Tags.belongsIn, hnames] using hmem
  · rintro ⟨block, tag, hc, hi, hbelongs⟩
    unfold Tags.belongsIn at hbelongs
    cases hnames : tags.inner.get? (tagName block) with
    | none =>
      rw [hnames] at hbelongs
      exact absurd (List.isEmpty_iff.mp hbelongs) (tagName_ne_nil hn hi)
    | some names =>
      rw [hnames] at hbelongs
      exact ⟨block, tag, names, hc, hi, hnames, by simpa using hbelongs⟩

/-- In a dialect, what a tag takes at its own indentation takes nothing itself. -/
theorem takesAt_of_takesAt {d : Dialect} (hd : tags.inner = d.tags.inner) (hn : Named nodes)
    {a b i : Nat} (h : takesAt tags nodes a b = true) : takesAt tags nodes b i = false := by
  obtain ⟨block, tag, _, hb, hbelongs⟩ := takesAt_iff.mp h
  rw [← Bool.not_eq_true, takesAt_iff]
  rintro ⟨tag', next, hb', hi, hbelongs'⟩
  obtain rfl : tag = tag' := by simpa [hb] using hb'
  rw [Dialect.belongsIn_of_belongsIn hd hbelongs (tagName_ne_nil hn hb)
    (tagName_ne_nil hn hi)] at hbelongs'
  exact Bool.false_ne_true hbelongs'

/-- The place of the next node, read off the links before it. -/
theorem Links.landing_nearest {d : Dialect} (hd : tags.inner = d.tags.inner) (hn : Named nodes)
    {n : Nat} {s : Links} (hs : s.Sound tags nodes n) (hlt : n < nodes.length) :
    ∃ m, Nearest nodes m (n + 1) ∧
      s.target tags nodes (n + 1) =
        Forest.heir (depthAt nodes) (takesAt tags nodes) s.kids (n + 1) m := by
  obtain ⟨m, before, after, hsplit, hless, hafter, hland⟩ :=
    Forest.landing_eq_heir hs.ordered (depthAt_zero_lt hlt)
      (fun _ _ => takesAt_of_takesAt hd hn) hs.hangs
      (show (s.kids 0).getLast? = s.forest.last? by rw [hs.spans, Forest.getLast?_roots])
  -- the members stand in the order of their numbers, so those after `m` have higher numbers
  have hnumbers : List.range' 0 (n + 1) = before ++ m :: after := by
    rw [← hsplit, hs.order]
    rfl
  have hsorted : (before ++ m :: after).Pairwise (· < ·) := by
    rw [← hnumbers]
    exact List.pairwise_lt_range'
  have hmem : ∀ j, j ∈ before ++ m :: after ↔ j < n + 1 := by
    intro j
    rw [← hnumbers, List.mem_range'_1]
    omega
  refine ⟨m, ⟨(hmem m).mp (by simp), hless, ?_⟩, hland⟩
  intro j hmj hj
  rcases List.mem_append.mp ((hmem j).mpr hj) with hjb | hja
  · have := (List.pairwise_append.mp hsorted).2.2 j hjb m (by simp)
    omega
  · rcases List.mem_cons.mp hja with rfl | hja
    · omega
    · exact hafter j hja

/-- The nodes of a template, added one after another, grow into the tree that their indentations
describe. -/
theorem grow_faithful (d : Dialect) (closings : Dictionary OptionValue TagKey) (nodes : List Node)
    (named : Named nodes) :
    ∃ g, Faithful { closings := closings, inner := d.tags.inner } nodes g := by
  let tags : Tags := { closings := closings, inner := d.tags.inner }
  let s := Links.run tags nodes
  have hs : ∀ n ≤ nodes.length, (s n).Sound tags nodes n := fun n hn =>
    (Links.grow_graph tags nodes n hn).2
  have hall := hs nodes.length (Nat.le_refl _)
  have hkids : ∀ i, ((s nodes.length).graph nodes).childrenOf i = (s nodes.length).kids i := by
    intro i
    by_cases hi : i ≤ nodes.length
    · exact childrenOf_linked hi
    · rw [(hall.unlinked i (by omega)).2]
      simp [childrenOf, Links.graph, getElem?_linked_eq_none (show nodes.length < i by omega)]
  have hup : ∀ i, ((s nodes.length).graph nodes).parentOf i = (s nodes.length).up i := by
    intro i
    by_cases hi : i ≤ nodes.length
    · exact parentOf_linked hi
    · rw [(hall.unlinked i (by omega)).1]
      simp [parentOf, Links.graph, getElem?_linked_eq_none (show nodes.length < i by omega)]
  refine ⟨fun n => (s n).graph nodes, fun n hn => (Links.grow_graph tags nodes n hn).1, ?_, ?_, ?_⟩
  · refine ⟨(s nodes.length).forest, ?_, ?_, hall.order, ?_⟩
    · rw [hkids, hall.spans]
    · rw [funext hkids]
      exact hall.hangs
    · rw [hall.shape, List.take_length]
  · intro i p
    rw [hkids, hup, hall.linked]
  · intro i hi
    have hd : tags.inner = d.tags.inner := rfl
    obtain ⟨m, hm, hland⟩ := Links.landing_nearest hd named (hs i (by omega)) hi
    have hparent : (s nodes.length).up (i + 1) =
        some (Forest.heir (depthAt nodes) (takesAt tags nodes) (s i).kids (i + 1) m) := by
      rw [Links.run_up tags nodes hi, ← hland]
      exact Function.update_self ..
    have hchildren : ((s i).graph nodes).childrenOf m = (s i).kids m :=
      childrenOf_linked (by have := hm.before; omega)
    refine ⟨m, hm, ?_⟩
    rw [hup, hparent, hchildren]
    unfold Forest.heir
    cases hc : ((s i).kids m).getLast? with
    | none => exact Or.inr ⟨by simp, rfl⟩
    | some c =>
      by_cases hl : Lists tags nodes c (i + 1)
      · refine Or.inl ⟨c, rfl, hl, ?_⟩
        simp only [(lists_iff named).mp hl, and_self, if_true]
      · refine Or.inr ⟨?_, ?_⟩
        · intro c' hc'
          obtain rfl : c = c' := by simpa using hc'
          exact hl
        · simp only [(lists_iff named).not.mp hl, if_false]

/-- A loop over two levels whose `else` stands at the indentation of its `if`. -/
def branches : List Node :=
  [{ indent := [], content := .tag "-for a in b".toList },
   { indent := [' ', ' '], content := .tag "-if a".toList },
   { indent := [' ', ' ', ' ', ' '], content := .plain "a".toList },
   { indent := [' ', ' '], content := .tag "-else".toList },
   { indent := [], content := .tag "-empty".toList }]

theorem grow_faithful_branches :
    Named branches ∧ ∃ g, Faithful (Dialect.tags .django) branches g := by
  have named : Named branches := by
    intro n hn line hline
    simp only [branches, List.mem_cons, List.not_mem_nil, or_false] at hn
    rcases hn with rfl | rfl | rfl | rfl | rfl <;> cases hline <;> decide
  exact ⟨named, grow_faithful .django _ branches named⟩

end Graph

end Haml
