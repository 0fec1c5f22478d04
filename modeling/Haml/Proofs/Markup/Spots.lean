import Haml.Proofs.Markup.Nesting

/-!
The places of nodes in the markup. `Forest.spots` lists the nodes that are written, each with its
neighbours and with the markup in front of it and behind it. At every spot the flags of an element
have trimmed the texts of its neighbours that stand next to it, and the texts of all nodes are their
faces, up to what has been trimmed.
-/
namespace Haml

/-! ## Blanks at the ends of texts -/

namespace Text

def startsBlank (t : Text) : Bool := t.head?.any isBlank

def endsBlank (t : Text) : Bool := t.getLast?.any isBlank

variable {t u : Text}

theorem startsBlank_of_prefix (hne : t ≠ []) (ht : startsBlank t = false) (h : t <+: u) :
    startsBlank u = false := by
  obtain ⟨v, rfl⟩ := h
  rwa [startsBlank, List.head?_append_of_ne_nil _ hne]

theorem endsBlank_of_suffix (hne : t ≠ []) (ht : endsBlank t = false) (h : t <:+ u) :
    endsBlank u = false := by
  obtain ⟨v, rfl⟩ := h
  rwa [endsBlank, List.getLast?_append_of_ne_nil _ hne]

theorem startsBlank_trimLeft (t : Text) : startsBlank (trimLeft t) = false := by
  have h := List.head?_dropWhile_not isBlank t
  rw [startsBlank, trimLeft]
  cases hhead : (t.dropWhile isBlank).head? with
  | none => rfl
  | some x => simpa [hhead] using h

theorem endsBlank_reverse (t : Text) : endsBlank t.reverse = startsBlank t := by
  rw [endsBlank, List.getLast?_reverse, startsBlank]

theorem endsBlank_trimRight (t : Text) : endsBlank (trimRight t) = false := by
  rw [trimRight, endsBlank_reverse]
  exact startsBlank_trimLeft _

/-- What is cut off at the right does not change the start. -/
theorem startsBlank_of_initial (h : u <+: t) (ht : startsBlank t = false) :
    startsBlank u = false := by
  obtain ⟨v, rfl⟩ := h
  cases u with
  | nil => rfl
  | cons x u => exact ht

theorem endsBlank_of_final (h : u <:+ t) (ht : endsBlank t = false) : endsBlank u = false := by
  rw [← List.reverse_reverse u, endsBlank_reverse]
  rw [← List.reverse_reverse t, endsBlank_reverse] at ht
  exact startsBlank_of_initial (List.reverse_prefix.mpr h) ht

theorem eq_nil_of_startsBlank (hblank : ∀ x ∈ t, isBlank x = true)
    (h : startsBlank (t ++ u) = false) : t = [] := by
  cases t with
  | nil => rfl
  | cons x t =>
    have hx : isBlank x = false := h
    rw [hblank x List.mem_cons_self] at hx
    cases hx

theorem eq_nil_of_endsBlank (hblank : ∀ x ∈ t, isBlank x = true)
    (h : endsBlank (u ++ t) = false) : t = [] := by
  rw [← List.reverse_reverse (u ++ t), endsBlank_reverse, List.reverse_append] at h
  exact List.reverse_eq_nil_iff.mp
    (eq_nil_of_startsBlank (fun x hx => hblank x (List.mem_reverse.mp hx)) h)

end Text

open Text (startsBlank endsBlank)

theorem startsBlank_trimEnds (right : Bool) (t : Text) :
    startsBlank (trimEnds true right t) = false := by
  have h := Text.startsBlank_trimLeft t
  cases right with
  | false => exact h
  | true => exact Text.startsBlank_of_initial (Text.trimRight_initial _) h

theorem trimEnds_sublist (left right : Bool) (t : Text) :
    List.Sublist (trimEnds left right t) t := by
  have hleft : List.Sublist (if left then Text.trimLeft t else t) t := by
    split
    · exact List.dropWhile_sublist _
    · exact List.Sublist.refl t
  unfold trimEnds
  dsimp only
  split
  · exact (Text.trimRight_initial _).sublist.trans hleft
  · exact hleft

theorem endsBlank_trimEnds (left : Bool) (t : Text) : endsBlank (trimEnds left true t) = false :=
  Text.endsBlank_trimRight _

theorem endsBlank_trimEnds_of {t : Text} (h : endsBlank t = false) (left right : Bool) :
    endsBlank (trimEnds left right t) = false := by
  cases right with
  | true => exact endsBlank_trimEnds left t
  | false =>
    cases left with
    | false => exact h
    | true => exact Text.endsBlank_of_final (List.dropWhile_suffix _) h

/-- A text that has no blanks at its ends is kept when what stands around it is trimmed. -/
theorem trimEnds_around {b c : Text} {x y : Char} (hb : ∀ z ∈ b, Text.isBlank z = true)
    (hx : Text.isBlank x = false) (hy : Text.isBlank y = false) (left right : Bool) (t : Text) :
    ∃ b' t', trimEnds left right (b ++ (x :: c ++ [y]) ++ t) = b' ++ (x :: c ++ [y]) ++ t' ∧
      (∀ z ∈ b', Text.isBlank z = true) ∧ (t' = t ∨ t' = Text.trimRight t) := by
  obtain ⟨b', hb', hleft⟩ : ∃ b', (∀ z ∈ b', Text.isBlank z = true) ∧
      (if left then Text.trimLeft (b ++ (x :: c ++ [y]) ++ t)
        else b ++ (x :: c ++ [y]) ++ t) = b' ++ (x :: c ++ [y]) ++ t := by
    cases left with
    | false => exact ⟨b, hb, rfl⟩
    | true =>
      refine ⟨[], by simp, ?_⟩
      rw [if_pos rfl, List.append_assoc, Text.trimLeft, List.dropWhile_append_of_pos hb]
      exact Text.trimLeft_cons hx _
  unfold trimEnds
  dsimp only
  rw [hleft]
  cases right with
  | false => exact ⟨b', t, rfl, hb', .inl rfl⟩
  | true =>
    refine ⟨b', Text.trimRight t, ?_, hb', .inr rfl⟩
    rw [if_pos rfl, ← List.append_assoc b', Text.trimRight_append hy]

/-! ## Spots -/

/-- What is around a row: the node above it, the node on its left with what is below that, and the
markup in front of the row and behind it. -/
structure Surround where
  up : Option Written := none
  left : Option (Written × Forest Written) := none
  front : Text := []
  back : Text := []

namespace Surround

def lower (c : Surround) (w : Written) (others : Forest Written) : Surround where
  up := some w
  front := c.front ++ w.before
  back := w.after ++ others.html ++ c.back

def next (c : Surround) (w : Written) (below : Forest Written) : Surround :=
  { c with
    left := some (w, below)
    front := c.front ++ (w.before ++ below.html ++ w.after) }

end Surround

/-- A node in its place, with the nodes below it and those on its right. -/
structure Spot where
  around : Surround
  here : Written
  below : Forest Written
  right : Forest Written

namespace Spot

/-- The markup of the node and of those below it. -/
def text (s : Spot) : Text := s.here.before ++ s.below.html ++ s.here.after

def front (s : Spot) : Text := s.around.front

def back (s : Spot) : Text := s.right.html ++ s.around.back

end Spot

namespace Forest

/-- The places of the nodes of a row and of those below them that are written. -/
def spots (c : Surround) : Forest Written → List Spot
  | nil => []
  | cons w below others =>
    ⟨c, w, below, others⟩ ::
      ((if w.node.content.showsChildren then spots (c.lower w others) below else []) ++
        spots (c.next w below) others)

/-- What is handed on to the row below a root and to the rest of the row holds at every spot. -/
theorem forall_spots {P : Surround → Forest Written → Prop}
    (hlower : ∀ c w below others, P c (cons w below others) → w.node.content.showsChildren = true →
      P (c.lower w others) below)
    (hnext : ∀ c w below others, P c (cons w below others) → P (c.next w below) others)
    {f : Forest Written} {c : Surround} (h : P c f) :
    ∀ s ∈ f.spots c, P s.around (cons s.here s.below s.right) := by
  induction f generalizing c with
  | nil => simp [spots]
  | cons w below others ihb iho =>
    intro s hs
    rw [spots, List.mem_cons, List.mem_append] at hs
    rcases hs with rfl | hs | hs
    · exact h
    · split at hs
      · next hshows => exact ihb (hlower c w below others h hshows) s hs
      · cases hs
    · exact iho (hnext c w below others h) s hs

/-- The markup is put together around every spot. -/
theorem html_eq_spot {f : Forest Written} {c : Surround} :
    ∀ s ∈ f.spots c, c.front ++ f.html ++ c.back = s.front ++ s.text ++ s.back := by
  have hall := forall_spots (f := f) (c := c)
    (P := fun d g => d.front ++ g.html ++ d.back = c.front ++ f.html ++ c.back) ?_ ?_ rfl
  · intro s hs
    rw [← hall s hs, html_cons]
    simp [Spot.front, Spot.text, Spot.back]
  · intro d w below others h _
    rw [← h, html_cons]
    simp [Surround.lower]
  · intro d w below others h
    rw [← h, html_cons]
    simp [Surround.next]

def lastTree? {α : Type} : Forest α → Option (α × Forest α)
  | nil => none
  | cons a below nil => some (a, below)
  | cons _ _ others => lastTree? others

theorem eq_nil_of_lastTree {α : Type} {f : Forest α} (h : f.lastTree? = none) : f = nil := by
  induction f with
  | nil => rfl
  | cons a below others _ ih =>
    cases others with
    | nil => cases h
    | cons _ _ _ => cases ih h

theorem lastTree_suffix {f : Forest Written} {w : Written} {below : Forest Written}
    (h : f.lastTree? = some (w, below)) : w.before ++ below.html ++ w.after <:+ f.html := by
  induction f with
  | nil => cases h
  | cons v low rest _ ih =>
    rw [html_cons]
    cases rest with
    | nil =>
      cases h
      simp [html, texts]
    | cons _ _ _ =>
      refine (ih h).trans ⟨v.before ++ low.html ++ v.after, ?_⟩
      simp

end Forest

/-! ## What is trimmed at a spot -/

@[simp] theorem Trims.content_apply (t : Trims) (w : Written) :
    (t.apply w).node.content = w.node.content := by
  unfold Trims.apply
  dsimp only
  split <;> rfl

theorem Content.trims_of_shows {content : Content} (h : content.showsChildren = true) :
    content.trimsChildren = true := by
  cases content <;> trivial

/-- The texts that stand next to the start of a row do not end in a blank. -/
def Surround.FlushLeft (c : Surround) : Prop :=
  match c.left, c.up with
  | some l, _ => endsBlank l.1.after = false
  | none, some u => endsBlank u.before = false
  | none, none => True

/-- The text that stands next to the end of a row does not start with a blank. -/
def Surround.FlushRight (c : Surround) : Prop := ∀ u, c.up = some u → startsBlank u.after = false

/-- A row has been trimmed, and what is around it too where the row says so. -/
def Surround.Trimmed (c : Surround) (f : Forest Written) : Prop :=
  ∃ (g : Forest Written) (inner left : Bool), f = g.trim inner left ∧
    (g.firstTrims = true → c.FlushLeft) ∧ (g.lastTrims = true → c.FlushRight)

namespace Forest

variable {c : Surround} {w : Written} {below others : Forest Written}

theorem trimmed_lower (h : c.Trimmed (cons w below others))
    (hshows : w.node.content.showsChildren = true) : (c.lower w others).Trimmed below := by
  obtain ⟨g, inner, left, heq, -, -⟩ := h
  cases g with
  | nil => cases heq
  | cons v low rest =>
    obtain ⟨rfl, rfl, rfl⟩ := cons.inj heq
    have htrims := Content.trims_of_shows ((Trims.content_apply ..) ▸ hshows)
    rw [if_pos htrims]
    -- what the first and the last root below ask of their parent has been done to it
    refine ⟨low, _, _, rfl, fun hfirst => ?_, fun hlast => ?_⟩
    · simp only [Surround.FlushLeft, Surround.lower, Trims.apply, trims, htrims, if_true, hfirst,
        Bool.or_true]
      exact endsBlank_trimEnds _ _
    · rintro u ⟨⟩
      simp only [Trims.apply, trims, htrims, if_true, hlast, Bool.or_true]
      exact startsBlank_trimEnds _ _

theorem trimmed_next (h : c.Trimmed (cons w below others)) : (c.next w below).Trimmed others := by
  obtain ⟨g, inner, left, heq, -, hright⟩ := h
  cases g with
  | nil => cases heq
  | cons v low rest =>
    obtain ⟨rfl, rfl, rfl⟩ := cons.inj heq
    refine ⟨rest, _, _, rfl, fun hfirst => ?_, fun hlast => ?_⟩
    · simp only [Surround.FlushLeft, Surround.next, Trims.apply, trims, hfirst, Bool.or_true,
        Bool.true_or]
      exact endsBlank_trimEnds _ _
    · -- the last root of the rest is the last root of the row
      refine hright ?_
      cases rest with
      | nil => cases hlast
      | cons _ _ _ => exact hlast

theorem startsBlank_first {f : Forest Written} {inner : Bool}
    (h : (f.trim inner true).first? = some w) : startsBlank w.before = false := by
  cases f with
  | nil => cases h
  | cons v low rest =>
    cases h
    exact startsBlank_trimEnds _ _

theorem endsBlank_last {f : Forest Written} {left : Bool}
    (h : (f.trim true left).lastTree? = some (w, below)) : endsBlank w.after = false := by
  induction f generalizing left with
  | nil => cases h
  | cons v low rest _ ih =>
    cases rest with
    | nil =>
      cases h
      simp only [Trims.apply, trims, isEmpty, Bool.and_true, Bool.or_true]
      exact endsBlank_trimEnds _ _
    | cons _ _ _ => exact ih h

end Forest

theorem Content.trims_of_trimsInner {content : Content} (h : content.trimsInner = true) :
    content.trimsChildren = true := by
  cases content with
  | element e => rfl
  | _ => cases h

/-- The texts that an element trims, by its two flags. -/
structure Spot.Trimmed (s : Spot) : Prop where
  outer : s.here.node.content.trimsOuter = true →
    startsBlank s.here.before = false ∧ s.around.FlushLeft ∧
      (∀ r, s.right.first? = some r → startsBlank r.before = false) ∧
      (s.right.isEmpty = true → s.around.FlushRight)
  inner : s.here.node.content.trimsInner = true →
    endsBlank s.here.before = false ∧ startsBlank s.here.after = false ∧
      (∀ w, s.below.first? = some w → startsBlank w.before = false) ∧
      ∀ w below, s.below.lastTree? = some (w, below) → endsBlank w.after = false

theorem Surround.Trimmed.spot {s : Spot}
    (h : s.around.Trimmed (.cons s.here s.below s.right)) : s.Trimmed := by
  obtain ⟨c, w, below, others⟩ := s
  obtain ⟨g, inner, left, heq, hfirst, hlast⟩ := h
  cases g with
  | nil => cases heq
  | cons v low rest =>
    obtain ⟨rfl, rfl, rfl⟩ := Forest.cons.inj heq
    refine ⟨fun houter => ?_, fun hinner => ?_⟩
    · rw [Trims.content_apply] at houter
      refine ⟨?_, hfirst houter, fun r hr => ?_, fun hempty => hlast ?_⟩
      · simp only [Trims.apply, Forest.trims, houter, Bool.or_true]
        exact startsBlank_trimEnds _ _
      · rw [houter] at hr
        exact Forest.startsBlank_first hr
      · cases rest with
        | nil => exact houter
        | cons _ _ _ => cases hempty
    · rw [Trims.content_apply] at hinner
      have htrims := Content.trims_of_trimsInner hinner
      simp only [if_pos htrims, hinner]
      refine ⟨?_, ?_, fun w hw => Forest.startsBlank_first hw,
        fun w below hw => Forest.endsBlank_last hw⟩
      · simp only [Trims.apply, Forest.trims, hinner, Bool.true_or]
        exact endsBlank_trimEnds _ _
      · simp only [Trims.apply, Forest.trims, hinner, Bool.true_or]
        exact startsBlank_trimEnds _ _

/-- Whatever is trimmed in a row, at every spot the flags have their effect. -/
theorem Forest.trimmed_spots (f : Forest Written) :
    ∀ s ∈ (f.trim false false).spots {}, s.Trimmed := by
  have htop : ({} : Surround).Trimmed (f.trim false false) :=
    ⟨f, false, false, rfl, fun _ => trivial, fun _ => nofun⟩
  intro s hs
  exact (forall_spots (fun _ _ _ _ => trimmed_lower) (fun _ _ _ _ => trimmed_next) htop s hs).spot

/-! ## Where the texts at a spot come from -/

/-- The texts of a node are its faces, trimmed, up to the breaks after it. -/
structure Written.Stems (p : Profile) (w : Written) (below : Forest Written) : Prop where
  read : Node.Read p w.node
  faces : ∃ f k, Node.faces p ⟨w.node.indent, w.node.content, k⟩ (!below.isEmpty) = .ok f ∧
    (∃ left right, w.before = trimEnds left right (f.before.getD [])) ∧
    ∃ left right, w.after = trimEnds left right (f.after.getD [])
  hidden : w.node.content.showsChildren = false → below.html = []

namespace Forest

def Stemmed (p : Profile) : Forest Written → Prop
  | nil => True
  | cons w below others =>
    w.Stems p below ∧ (w.node.content.showsChildren = true → Stemmed p below) ∧ Stemmed p others

variable {p : Profile}

theorem isEmpty_trim (inner left : Bool) (f : Forest Written) :
    (f.trim inner left).isEmpty = f.isEmpty := by
  cases f <;> rfl

theorem isEmpty_write {f : Forest Node} {w : Forest Written} (h : f.write p = .ok w) :
    w.isEmpty = f.isEmpty := by
  cases f with
  | nil =>
    cases h
    rfl
  | cons n below others =>
    obtain ⟨_, _, _, _, _, _, rfl⟩ := write_cons h
    rfl

/-- Trimming takes something out of the markup, and puts nothing in. -/
theorem html_trim_sublist (inner left : Bool) (f : Forest Written) :
    List.Sublist (f.trim inner left).html f.html := by
  induction f generalizing inner left with
  | nil => exact List.Sublist.refl _
  | cons w below others ihb iho =>
    rw [trim, html_cons, html_cons]
    have hbelow : List.Sublist (if w.node.content.trimsChildren then
        trim w.node.content.trimsInner w.node.content.trimsInner below else below).html
        below.html := by
      split
      · exact ihb _ _
      · exact List.Sublist.refl _
    exact (trimEnds_sublist ..).append (hbelow.append ((trimEnds_sublist ..).append (iho _ _)))

theorem stemmed_trim {f : Forest Node} {w : Forest Written} (hread : ∀ n ∈ f.toList, Node.Read p n)
    (h : f.write p = .ok w) (inner left : Bool) : (w.trim inner left).Stemmed p := by
  induction f generalizing w inner left with
  | nil =>
    cases h
    trivial
  | cons n below others ihb iho =>
    simp only [toList, List.mem_cons, List.mem_append] at hread
    obtain ⟨faces, lower, rest, hf, hrest, hlower, rfl⟩ := write_cons h
    have hempty : (if n.content.trimsChildren then
        lower.trim n.content.trimsInner n.content.trimsInner else lower).isEmpty =
        below.isEmpty := by
      have hlow : lower.isEmpty = below.isEmpty := by
        split at hlower
        · exact isEmpty_write hlower
        · rw [hlower]
          cases below <;> rfl
      split
      · rw [isEmpty_trim, hlow]
      · exact hlow
    refine ⟨⟨?_, ⟨faces, n.newlines, ?_, ⟨_, _, rfl⟩, _, _, rfl⟩, fun hshows => ?_⟩,
      fun hshows => ?_, iho (fun m hm => hread m (.inr (.inr hm))) hrest _ _⟩
    · -- a node is changed in its breaks only
      have hn := hread n (.inl rfl)
      unfold Trims.apply
      dsimp only
      split
      · exact ⟨hn.indent, hn.content⟩
      · exact hn
    · dsimp only
      rw [hempty]
      unfold Trims.apply
      dsimp only
      split <;> exact hf
    · -- nodes that are not shown have been given no texts
      rw [Trims.content_apply] at hshows
      rw [if_neg (by simpa using hshows)] at hlower
      have hlow : lower.html = [] := by rw [hlower, html_unwritten]
      dsimp only
      split
      · exact List.sublist_nil.mp (hlow ▸ html_trim_sublist _ _ lower)
      · exact hlow
    · rw [Trims.content_apply] at hshows
      rw [if_pos hshows] at hlower
      dsimp only
      rw [if_pos (Content.trims_of_shows hshows)]
      exact ihb (fun m hm => hread m (.inr (.inl hm))) hlower _ _

theorem Stemmed.lastTree {f : Forest Written} {w : Written} {below : Forest Written}
    (h : f.Stemmed p) (hlast : f.lastTree? = some (w, below)) : w.Stems p below := by
  induction f with
  | nil => cases hlast
  | cons v low rest _ ih =>
    cases rest with
    | nil =>
      cases hlast
      exact h.1
    | cons _ _ _ => exact ih h.2.2 hlast

end Forest

end Haml
