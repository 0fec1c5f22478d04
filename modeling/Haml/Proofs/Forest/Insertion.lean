import Haml.Node.Forest

/-!
Forests that differ by one tree. A node and the deeper nodes that follow it hang together, at the
place where the node was put (`hang`). A node of the same indentation that comes next is put after
that tree, unless a tag takes it (`takesAside`), so the forests with the tree and without it differ
by nothing else (`Inserted`), and so they do whatever comes after.
-/
namespace Haml.Forest

variable {tags : Tags} {c next : Node} {lower f g : Forest Node}

/-- Puts a node with the forest `lower` below it where `add` puts the node alone. -/
def hang (tags : Tags) (c : Node) : Forest Node → Forest Node → Forest Node
  | nil, lower => cons c lower nil
  | cons a below nil, lower =>
    if tags.goesBelow a c then cons a (hang tags c below lower) nil
    else cons a below (cons c lower nil)
  | cons a below others, lower => cons a below (hang tags c others lower)

/-- Whether a node that comes next is taken by a tag of the same indentation. -/
def takesAside (tags : Tags) (next : Node) : Forest Node → Bool
  | nil => false
  | cons a below nil =>
    if a.depth < next.depth then takesAside tags next below else tags.goesBelow a next
  | cons _ _ others => takesAside tags next others

/-- The second forest has one tree more, whose root is `c` and which is not the last of its row. -/
inductive Inserted (c : Node) : Forest Node → Forest Node → Prop
  | here {below others : Forest Node} (h : others ≠ nil) :
      Inserted c others (cons c below others)
  | under {a : Node} {f g others : Forest Node} (h : Inserted c f g) :
      Inserted c (cons a f others) (cons a g others)
  | after {a : Node} {below f g : Forest Node} (h : Inserted c f g) :
      Inserted c (cons a below f) (cons a below g)

theorem add_last (tags : Tags) (next a : Node) (below : Forest Node) :
    (cons a below nil).add tags next =
      if tags.goesBelow a next then cons a (below.add tags next) nil
      else cons a below (cons next nil nil) := rfl

theorem add_skip (tags : Tags) (next a : Node) (below : Forest Node) {others : Forest Node}
    (h : others ≠ nil) :
    (cons a below others).add tags next = cons a below (others.add tags next) := by
  cases others with
  | nil => exact absurd rfl h
  | cons b lower rest => rfl

theorem hang_last (tags : Tags) (c : Node) (lower : Forest Node) (a : Node) (below : Forest Node) :
    (cons a below nil).hang tags c lower =
      if tags.goesBelow a c then cons a (below.hang tags c lower) nil
      else cons a below (cons c lower nil) := rfl

theorem hang_skip (tags : Tags) (c : Node) (lower : Forest Node) (a : Node) (below : Forest Node)
    {others : Forest Node} (h : others ≠ nil) :
    (cons a below others).hang tags c lower = cons a below (others.hang tags c lower) := by
  cases others with
  | nil => exact absurd rfl h
  | cons b lower rest => rfl

theorem takesAside_last (tags : Tags) (next a : Node) (below : Forest Node) :
    (cons a below nil).takesAside tags next =
      if a.depth < next.depth then below.takesAside tags next else tags.goesBelow a next := rfl

theorem takesAside_skip (tags : Tags) (next a : Node) (below : Forest Node) {others : Forest Node}
    (h : others ≠ nil) :
    (cons a below others).takesAside tags next = others.takesAside tags next := by
  cases others with
  | nil => exact absurd rfl h
  | cons b lower rest => rfl

theorem add_ne_nil (f : Forest Node) : f.add tags next ≠ nil := by
  cases f with
  | nil => simp [add]
  | cons a below others =>
    cases others with
    | nil =>
      rw [add_last]
      split <;> simp
    | cons b lower rest =>
      rw [add_skip _ _ _ _ (by simp)]
      simp

theorem hang_ne_nil (f : Forest Node) : f.hang tags c lower ≠ nil := by
  cases f with
  | nil => simp [hang]
  | cons a below others =>
    cases others with
    | nil =>
      rw [hang_last]
      split <;> simp
    | cons b lower rest =>
      rw [hang_skip _ _ _ _ _ (by simp)]
      simp

theorem hang_nil (f : Forest Node) : f.hang tags c nil = f.add tags c := by
  induction f with
  | nil => rfl
  | cons a below others ihb iho =>
    by_cases h : others = nil
    · subst h
      rw [hang_last, add_last, ihb]
    · rw [hang_skip _ _ _ _ _ h, add_skip _ _ _ _ h, iho]

theorem goesBelow_of_lt {a b : Node} (h : a.depth < b.depth) : tags.goesBelow a b = true := by
  simp [Tags.goesBelow, h]

theorem depth_le_of_goesBelow {a b : Node} (h : tags.goesBelow a b = true) :
    a.depth ≤ b.depth := by
  simp only [Tags.goesBelow, Bool.or_eq_true, decide_eq_true_eq, Bool.and_eq_true,
    beq_iff_eq] at h
  omega

/-- A deeper node is put below the node that was put last. -/
theorem add_hang {m : Node} (h : c.depth < m.depth) (f : Forest Node) :
    (f.hang tags c lower).add tags m = f.hang tags c (lower.add tags m) := by
  induction f with
  | nil =>
    rw [hang, add_last, if_pos (goesBelow_of_lt h)]
    rfl
  | cons a below others ihb iho =>
    by_cases hn : others = nil
    · subst hn
      rw [hang_last, hang_last]
      by_cases ha : tags.goesBelow a c = true
      · have hle := depth_le_of_goesBelow ha
        rw [if_pos ha, if_pos ha, add_last, if_pos (goesBelow_of_lt (by omega)), ihb]
      · rw [if_neg ha, if_neg ha, add_skip _ _ _ _ (by simp), add_last,
          if_pos (goesBelow_of_lt h)]
    · rw [hang_skip _ _ _ _ _ hn, hang_skip _ _ _ _ _ hn, add_skip _ _ _ _ (hang_ne_nil others),
        iho]

/-- The deeper nodes that follow a node become the forest below it. -/
theorem exists_hang {deeper : List Node} (h : ∀ m ∈ deeper, c.depth < m.depth) (f : Forest Node) :
    ∃ lower, (c :: deeper).foldl (fun f n => f.add tags n) f = f.hang tags c lower := by
  have hrun : ∀ lower : Forest Node, ∃ lower',
      deeper.foldl (fun f n => f.add tags n) (f.hang tags c lower) = f.hang tags c lower' := by
    induction deeper with
    | nil => exact fun lower => ⟨lower, rfl⟩
    | cons m deeper ih =>
      intro lower
      rw [List.foldl_cons, add_hang (h m (by simp)) f]
      exact ih (fun m' hm => h m' (by simp [hm])) _
  rw [List.foldl_cons, ← hang_nil]
  exact hrun nil

theorem Inserted.ne_nil (h : Inserted c f g) : f ≠ nil ∧ g ≠ nil := by
  cases h with
  | here h => exact ⟨h, by simp⟩
  | under _ => simp
  | after _ => simp

/-- The forests get the next node at the same place. -/
theorem Inserted.add (h : Inserted c f g) (tags : Tags) (next : Node) :
    Inserted c (f.add tags next) (g.add tags next) := by
  induction h with
  | here h =>
    rw [add_skip _ _ _ _ h]
    exact .here (add_ne_nil _)
  | @under a f g others h ih =>
    by_cases hn : others = nil
    · subst hn
      rw [add_last, add_last]
      split
      · exact .under ih
      · exact .under h
    · rw [add_skip _ _ _ _ hn, add_skip _ _ _ _ hn]
      exact .under h
  | @after a below f g h ih =>
    rw [add_skip _ _ _ _ h.ne_nil.1, add_skip _ _ _ _ h.ne_nil.2]
    exact .after ih

theorem Inserted.foldl (h : Inserted c f g) (tags : Tags) (nodes : List Node) :
    Inserted c (nodes.foldl (fun f n => f.add tags n) f)
      (nodes.foldl (fun f n => f.add tags n) g) := by
  induction nodes generalizing f g with
  | nil => exact h
  | cons n nodes ih => exact ih (h.add tags n)

/-- A node that takes none and is taken by none goes below those that are indented less. -/
structure Inert (tags : Tags) (c : Node) : Prop where
  takes : ∀ m : Node, tags.takes c.content m.content = false
  taken : ∀ m : Node, tags.takes m.content c.content = false

theorem Inert.goesBelow_iff (h : Inert tags c) (a : Node) :
    tags.goesBelow a c = true ↔ a.depth < c.depth := by
  simp [Tags.goesBelow, h.taken a]

theorem Inert.not_goesBelow (h : Inert tags c) (hd : c.depth = next.depth) :
    ¬ tags.goesBelow c next = true := by
  simp [Tags.goesBelow, h.takes next, hd]

/-- A node of the same indentation that no tag takes is put right after the tree of an inert one. -/
theorem inserted_hang (hc : Inert tags c) (hd : c.depth = next.depth)
    (haside : f.takesAside tags next = false) :
    Inserted c (f.add tags next) ((f.hang tags c lower).add tags next) := by
  induction f with
  | nil =>
    rw [hang, add_last, if_neg (hc.not_goesBelow hd)]
    exact .here (add_ne_nil nil)
  | cons a below others ihb iho =>
    by_cases hn : others = nil
    · subst hn
      rw [takesAside_last] at haside
      rw [hang_last, add_last]
      by_cases ha : a.depth < next.depth
      · rw [if_pos ha] at haside
        rw [if_pos (goesBelow_of_lt ha), if_pos ((hc.goesBelow_iff a).mpr (hd ▸ ha)), add_last,
          if_pos (goesBelow_of_lt ha)]
        exact .under (ihb haside)
      · rw [if_neg ha] at haside
        have hstay : ¬ tags.goesBelow a c = true := by
          rw [hc.goesBelow_iff, hd]
          exact ha
        rw [if_neg (by simp [haside]), if_neg hstay, add_skip _ _ _ _ (by simp), add_last,
          if_neg (hc.not_goesBelow hd)]
        exact .after (.here (by simp))
    · rw [takesAside_skip _ _ _ _ hn] at haside
      rw [hang_skip _ _ _ _ _ hn, add_skip _ _ _ _ hn, add_skip _ _ _ _ (hang_ne_nil others)]
      exact .after (iho haside)

/-- Two forests of nodes, one of them with an inert node and the deeper nodes after it between. -/
theorem inserted_ofNodes {before deeper after : List Node} (hc : Inert tags c)
    (hd : c.depth = next.depth) (hdeeper : ∀ m ∈ deeper, c.depth < m.depth)
    (haside : (ofNodes tags before).takesAside tags next = false) :
    Inserted c (ofNodes tags (before ++ next :: after))
      (ofNodes tags (before ++ c :: deeper ++ next :: after)) := by
  obtain ⟨lower, hlower⟩ := exists_hang hdeeper (ofNodes tags before)
  simp only [ofNodes, List.foldl_append, List.foldl_cons] at hlower ⊢
  rw [hlower]
  exact (inserted_hang hc hd haside).foldl tags after

end Haml.Forest
