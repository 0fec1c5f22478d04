import Haml.Proofs.Markup.Essence
import Haml.Proofs.Markup.Shown
import Haml.Proofs.Markup.Spots

/-!
White space around and inside elements. The flags of an element trim the texts of its neighbours
that stand next to it, and nothing else; main statement: no blank is left next to an element with a
flag wherever its neighbour puts something there. A neighbour that puts nothing there leaves the
blanks behind it.
-/
namespace Haml

open Text (startsBlank endsBlank)

/-! ## The ends of the texts of a node -/

/-- Something is seen of a node itself. -/
def Node.Seen (p : Profile) (n : Node) (hasChildren : Bool) : Prop :=
  ∃ x ∈ n.ownText p hasChildren, Text.isBlank x = false

/-- The markup of a node and of those below it ends with something of the node itself, the break
after it apart: it is closed, or there is nothing behind its own text, which does not end in a
blank. -/
def Node.Ends (p : Profile) (n : Node) (below : Forest Written) : Prop :=
  n.content.closes p ≠ [] ∨
    (below.isEmpty = false → n.content.showsChildren = false) ∧
      n.ownText p (!below.isEmpty) ≠ [] ∧ endsBlank (n.ownText p (!below.isEmpty)) = false

namespace Node

instance (p : Profile) (n : Node) (hasChildren : Bool) : Decidable (n.Seen p hasChildren) :=
  List.decidableBEx (fun x => Text.isBlank x = false) (n.ownText p hasChildren)

instance (p : Profile) (n : Node) (below : Forest Written) : Decidable (n.Ends p below) :=
  inferInstanceAs (Decidable (_ ∨ _))

variable {p : Profile} {n : Node} {hasChildren : Bool} {f : Faces}

/-- A node that is closed has something in the text after. -/
theorem squeeze_after (h : n.faces p hasChildren = .ok f) (hcloses : n.content.closes p ≠ []) :
    squeeze (f.after.getD []) ≠ [] := by
  obtain ⟨indent, content, newlines⟩ := n
  cases content with
  | element e =>
    obtain ⟨opening, -, h⟩ := bind_eq_ok h
    cases h
    have hclosed : (e.selfClosing && !e.hasInline) = false := by
      simpa [Content.closes] using hcloses
    refine squeeze_ne_nil ⟨'<', ?_, by decide⟩
    simp [closingTag_eq, hclosed, Token.spell]
  | comment line =>
    cases h
    exact squeeze_ne_nil ⟨'-', by simp, by decide⟩
  | conditional line =>
    unfold faces Content.faces at h
    dsimp only at h
    split at h
    · cases h
    · cases h
      exact squeeze_ne_nil ⟨'<', by simp, by decide⟩
  | tag line =>
    unfold faces Content.faces at h
    dsimp only at h
    cases hclosing : p.tags.closing? (tagName line) with
    | none => simp [Content.closes, hclosing] at hcloses
    | some closing =>
      rw [hclosing] at h
      cases h
      exact squeeze_ne_nil ⟨'%', by simp [Content.tagText], by decide⟩
  | _ => exact absurd rfl hcloses

/-- Where nothing is written below a node that is not closed, its own text is the end of the text
before. -/
theorem own_suffix_before (h : n.faces p hasChildren = .ok f) (hcloses : n.content.closes p = [])
    (hleaf : hasChildren = true → n.content.showsChildren = false) :
    n.ownText p hasChildren <:+ f.before.getD [] := by
  obtain ⟨indent, content, newlines⟩ := n
  cases content with
  | plain line =>
    cases hasChildren with
    | true => cases hleaf rfl
    | false =>
      cases h
      exact List.suffix_append _ _
  | element e =>
    obtain ⟨opening, ho, h⟩ := bind_eq_ok h
    cases h
    obtain ⟨hself, hinline⟩ : e.selfClosing = true ∧ e.hasInline = false := by
      simpa [Content.closes] using hcloses
    have hend : ∀ breaks, Content.openingEnd p breaks e hasChildren = e.contentText p := by
      intro breaks
      unfold Content.openingEnd Element.contentText
      rw [inlineText_eq_none hinline]
      cases hformat : p.settings.format.isHtml <;> simp [hself]
    rw [Content.openingTag_eq ho, hend]
    simp only [ownText, List.append_assoc]
    exact List.suffix_append _ _
  | comment line => cases hcloses
  | conditional line => cases hcloses
  | doctype line =>
    cases h
    exact List.suffix_refl _
  | silent line => exact List.nil_suffix
  | expression line =>
    cases h
    exact List.suffix_append _ _
  | tag line =>
    unfold faces Content.faces at h
    dsimp only at h
    cases hclosing : p.tags.closing? (tagName line) with
    | some closing => simp [Content.closes, hclosing] at hcloses
    | none =>
      rw [hclosing] at h
      cases hasChildren with
      | true => cases hleaf rfl
      | false =>
        cases h
        exact List.suffix_append _ _
  | filter name body =>
    obtain ⟨filter, hfilter, h⟩ := bind_eq_ok h
    obtain ⟨text, htext, h⟩ := bind_eq_ok h
    cases h
    simp only [ownText, filterText_eq indent hfilter htext]
    exact List.suffix_append _ _

end Node

namespace Element

def startTag (p : Profile) (e : Element) : Text :=
  '<' :: e.tag ++ e.attributesText p ++ e.slash p.settings ++ ['>']

def endTag (e : Element) : Text := "</".toList ++ e.tag ++ ['>']

end Element

namespace Content

variable {p : Profile} {indent breaks : Text} {e : Element} {hasChildren : Bool}

theorem exists_inlineText (hi : e.hasInline = true) : ∃ t, inlineText p e = some t := by
  unfold inlineText
  cases hin : e.inline with
  | none => simp [Element.hasInline, hin] at hi
  | some w =>
    have hw : w.isEmpty = false := by simpa [Element.hasInline, hin] using hi
    cases e.isVariable <;> simp [hw]

/-- Behind an opening tag stands its inline content, or nothing but a line end. -/
theorem openingEnd_split (hb : ∀ x ∈ breaks, Text.isBlank x = true) :
    ∃ t, openingEnd p breaks e hasChildren = e.slash p.settings ++ '>' :: t ∧
      if e.hasInline then ∃ y u, t = y :: u ∧ Text.isBlank y = false
      else ∀ x ∈ t, Text.isBlank x = true := by
  unfold openingEnd Element.slash
  cases hinline : e.hasInline with
  | true =>
    obtain ⟨t, ht⟩ := exists_inlineText (p := p) hinline
    obtain ⟨y, u, rfl, hy⟩ := inlineText_cons ht
    rw [ht]
    cases e.trimsInner with
    | false => exact ⟨y :: u, by simp, y, u, rfl, hy⟩
    | true => exact ⟨y :: Text.trimRight u, by simp [Text.trim_cons hy], y, _, rfl, hy⟩
  | false =>
    rw [inlineText_eq_none hinline]
    cases e.selfClosing with
    | true =>
      cases p.settings.format.isHtml with
      | true => exact ⟨[], rfl, by simp⟩
      | false => exact ⟨[], rfl, by simp⟩
    | false =>
      cases hasChildren with
      | true => exact ⟨breaks, rfl, hb⟩
      | false => exact ⟨[], rfl, by simp⟩

end Content

namespace Written.Stems

variable {p : Profile} {w : Written} {below : Forest Written} {e : Element}

theorem before_ne_nil (h : w.Stems p below) (hseen : w.node.Seen p (!below.isEmpty)) :
    w.before ≠ [] := by
  obtain ⟨f, k, hf, ⟨left, right, hbefore⟩, -⟩ := h.faces
  have hread : Node.Read p ⟨w.node.indent, w.node.content, k⟩ := ⟨h.read.indent, h.read.content⟩
  have hown := Content.trim_before hread hf
  apply ne_nil_of_squeeze
  rw [hbefore, squeeze_trimEnds, ← squeeze_trim, hown, squeeze_trim]
  exact squeeze_ne_nil hseen

theorem after_ne_nil (h : w.Stems p below) (hcloses : w.node.content.closes p ≠ []) :
    w.after ≠ [] := by
  obtain ⟨f, k, hf, -, left, right, hafter⟩ := h.faces
  apply ne_nil_of_squeeze
  rw [hafter, squeeze_trimEnds]
  exact Node.squeeze_after hf hcloses

/-- The markup of a tree ends with something of its root, if that is trimmed at its end. -/
theorem ends (h : w.Stems p below) (hends : w.node.Ends p below)
    (hafter : endsBlank w.after = false) :
    w.before ++ below.html ++ w.after ≠ [] ∧
      endsBlank (w.before ++ below.html ++ w.after) = false := by
  by_cases hnil : w.after = []
  · rcases hends with hcloses | ⟨hleaf, hown, hblank⟩
    · exact absurd hnil (h.after_ne_nil hcloses)
    · -- only the text before is left, and it ends with the own text of the node
      have hbelow : below.html = [] := by
        cases below with
        | nil => rfl
        | cons _ _ _ => exact h.hidden (hleaf rfl)
      have hcloses : w.node.content.closes p = [] := by
        by_contra hne
        exact h.after_ne_nil hne hnil
      obtain ⟨f, k, hf, ⟨left, right, hbefore⟩, -⟩ := h.faces
      have hsuffix := Node.own_suffix_before hf hcloses fun hc => hleaf (by simpa using hc)
      have hseen : w.node.Seen p (!below.isEmpty) := by
        refine ⟨_, List.getLast_mem hown, ?_⟩
        simpa [endsBlank, List.getLast?_eq_some_getLast hown] using hblank
      have htext : w.before ++ below.html ++ w.after = w.before := by simp [hbelow, hnil]
      rw [htext, hbefore]
      refine ⟨hbefore ▸ h.before_ne_nil hseen, endsBlank_trimEnds_of ?_ left right⟩
      exact Text.endsBlank_of_suffix hown hblank hsuffix
  · refine ⟨List.append_ne_nil_of_right_ne_nil _ hnil, ?_⟩
    exact Text.endsBlank_of_suffix hnil hafter (List.suffix_append _ _)

theorem before_eq (h : w.Stems p below) (he : w.node.content = .element e) :
    ∃ b t, w.before = b ++ e.startTag p ++ t ∧ (∀ x ∈ b, Text.isBlank x = true) ∧
      if e.hasInline then ∃ y u, t = y :: u ∧ Text.isBlank y = false
      else ∀ x ∈ t, Text.isBlank x = true := by
  obtain ⟨f, k, hf, ⟨left, right, hbefore⟩, -⟩ := h.faces
  have hread := h.read
  obtain ⟨⟨indent, content, newlines⟩, before, after⟩ := w
  dsimp only at he hf hread hbefore ⊢
  subst he
  obtain ⟨opening, ho, hf⟩ := bind_eq_ok hf
  obtain rfl := Except.ok.inj hf
  have hi : ∀ x ∈ indent, Text.isBlank x = true :=
    fun x hx => Text.isBlank_of_isIndent (hread.indent x hx)
  obtain ⟨t, hend, ht⟩ := Content.openingEnd_split (p := p) (Node.isBlank_breaks _)
  have hopening : opening = indent ++ e.startTag p ++ t := by
    rw [Content.openingTag_eq ho, hend]
    simp [Element.startTag]
  obtain ⟨b, t', heq, hb, ht'⟩ := trimEnds_around (x := '<') (y := '>') hi (by decide) (by decide)
    left right (c := e.tag ++ e.attributesText p ++ e.slash p.settings) t
  refine ⟨b, t', ?_, hb, ?_⟩
  · rw [hbefore, hopening]
    exact heq
  · split
    · next hinline =>
      rw [if_pos hinline] at ht
      obtain ⟨y, u, rfl, hy⟩ := ht
      rcases ht' with rfl | rfl
      · exact ⟨y, u, rfl, hy⟩
      · exact ⟨y, _, Text.trimRight_append (u := []) hy u, hy⟩
    · next hinline =>
      rw [if_neg hinline] at ht
      rcases ht' with rfl | rfl
      · exact ht
      · exact fun x hx => ht x ((Text.trimRight_initial _).subset hx)

theorem after_eq (h : w.Stems p below) (he : w.node.content = .element e)
    (hself : e.selfClosing = false) :
    ∃ b t, w.after = b ++ e.endTag ++ t ∧ (∀ x ∈ b, Text.isBlank x = true) ∧
      ∀ x ∈ t, Text.isBlank x = true := by
  obtain ⟨f, k, hf, -, left, right, hafter⟩ := h.faces
  have hread := h.read
  obtain ⟨⟨indent, content, newlines⟩, before, after⟩ := w
  dsimp only at he hf hread hafter ⊢
  subst he
  obtain ⟨opening, -, hf⟩ := bind_eq_ok hf
  obtain rfl := Except.ok.inj hf
  obtain ⟨i, breaks, hclosing, hi, hbreaks⟩ : ∃ i breaks,
      Content.closingTag indent (Node.breaks ⟨indent, .element e, k⟩) e (!below.isEmpty) =
        i ++ e.endTag ++ breaks ∧ (∀ x ∈ i, Text.isBlank x = true) ∧
        ∀ x ∈ breaks, Text.isBlank x = true := by
    rw [closingTag_eq, if_neg (by simp [hself])]
    refine ⟨_, _, (List.append_assoc ..).symm, ?_, ?_⟩
    · split
      · exact fun x hx => Text.isBlank_of_isIndent (hread.indent x hx)
      · simp
    · split
      · exact Node.isBlank_breaks _
      · simp [Text.isBlank, Text.isWhite]
  obtain ⟨b, t, heq, hb, ht⟩ := trimEnds_around (x := '<') (y := '>') hi (by decide) (by decide)
    left right (c := '/' :: e.tag) breaks
  refine ⟨b, t, ?_, hb, ?_⟩
  · rw [hafter, hclosing]
    exact heq
  · rcases ht with rfl | rfl
    · exact hbreaks
    · exact fun x hx => hbreaks x ((Text.trimRight_initial _).subset hx)

end Written.Stems

/-! ## What stands next to a spot -/

/-- The markup around a row ends and begins with that of its neighbours, and all of them stem from
a forest. -/
structure Surround.Near (p : Profile) (c : Surround) (f : Forest Written) : Prop where
  row : f.Stemmed p
  left : ∀ l below, c.left = some (l, below) →
    l.Stems p below ∧ l.before ++ below.html ++ l.after <:+ c.front
  up : ∀ u, c.up = some u →
    (∃ below, u.Stems p below ∧ (f.isEmpty = false → below.isEmpty = false)) ∧
      (c.left = none → u.before <:+ c.front) ∧ u.after <+: c.back
  top : c.up = none → (c.left = none → c.front = []) ∧ c.back = []

namespace Surround.Near

variable {p : Profile} {c : Surround} {w : Written} {below others : Forest Written}

theorem lower (h : c.Near p (.cons w below others))
    (hshows : w.node.content.showsChildren = true) : (c.lower w others).Near p below where
  row := h.row.2.1 hshows
  left := nofun
  up := by
    rintro u ⟨⟩
    refine ⟨⟨below, h.row.1, id⟩, fun _ => List.suffix_append _ _, ?_⟩
    exact (List.prefix_append _ _).trans (List.prefix_append _ _)
  top := nofun

theorem next (h : c.Near p (.cons w below others)) : (c.next w below).Near p others where
  row := h.row.2.2
  left := by
    rintro l lb ⟨⟩
    exact ⟨h.row.1, List.suffix_append _ _⟩
  up := by
    intro u hu
    obtain ⟨⟨b, hb, hempty⟩, -, hback⟩ := h.up u hu
    exact ⟨⟨b, hb, fun _ => hempty rfl⟩, nofun, hback⟩
  top hu := ⟨nofun, (h.top hu).2⟩

end Surround.Near

theorem Forest.near_spots {p : Profile} {f : Forest Written} (h : f.Stemmed p) :
    ∀ s ∈ f.spots {}, s.around.Near p (.cons s.here s.below s.right) := by
  have htop : ({} : Surround).Near p f := ⟨h, nofun, nofun, fun _ => ⟨fun _ => rfl, rfl⟩⟩
  exact forall_spots (fun _ _ _ _ h => h.lower) (fun _ _ _ _ h => h.next) htop

def Forest.Begins (p : Profile) : Forest Written → Prop
  | nil => True
  | cons w below _ => w.node.Seen p (!below.isEmpty)

instance (p : Profile) : DecidablePred (Forest.Begins p)
  | .nil => isTrue trivial
  | .cons w below _ => inferInstanceAs (Decidable (w.node.Seen p (!below.isEmpty)))

theorem Forest.Stemmed.startsBlank_html {p : Profile} {f : Forest Written} (h : f.Stemmed p)
    (hbegins : f.Begins p) (hflush : ∀ w, f.first? = some w → startsBlank w.before = false)
    {t : Text} (ht : f.isEmpty = true → startsBlank t = false) :
    startsBlank (f.html ++ t) = false := by
  cases f with
  | nil => exact ht rfl
  | cons w below others =>
    refine Text.startsBlank_of_prefix (h.1.before_ne_nil hbegins) (hflush w rfl) ?_
    rw [html_cons, List.append_assoc]
    exact List.prefix_append _ _

namespace Spot

/-- What stands on the left of a spot ends with something of the node there, or of the node
above. -/
def ClosedLeft (p : Profile) (s : Spot) : Prop :=
  match s.around.left, s.around.up with
  | some (l, below), _ => l.node.Ends p below
  | none, some u => u.node.Seen p true
  | none, none => True

/-- What stands on the right of a spot begins with something, or the node above it is closed
there. -/
def ClosedRight (p : Profile) (s : Spot) : Prop :=
  s.right.Begins p ∧
    (s.right.isEmpty = true → ∀ u ∈ s.around.up, u.node.content.closes p ≠ [])

/-- The last tree below a spot, if there is one, ends with something of its root. -/
def ClosedBelow (p : Profile) (s : Spot) : Prop :=
  ∀ t ∈ s.below.lastTree?, t.1.node.Ends p t.2

instance (p : Profile) : DecidablePred (ClosedLeft p)
  | ⟨⟨_, some (l, below), _, _⟩, _, _, _⟩ => inferInstanceAs (Decidable (l.node.Ends p below))
  | ⟨⟨some u, none, _, _⟩, _, _, _⟩ => inferInstanceAs (Decidable (u.node.Seen p true))
  | ⟨⟨none, none, _, _⟩, _, _, _⟩ => isTrue trivial

instance (p : Profile) (s : Spot) : Decidable (s.ClosedRight p) :=
  inferInstanceAs (Decidable (_ ∧ _))

instance (p : Profile) (s : Spot) : Decidable (s.ClosedBelow p) :=
  inferInstanceAs (Decidable (∀ t ∈ s.below.lastTree?, t.1.node.Ends p t.2))

variable {p : Profile} {s : Spot}

theorem endsBlank_front (hn : s.around.Near p (.cons s.here s.below s.right))
    (hflush : s.around.FlushLeft) (hclosed : s.ClosedLeft p) : endsBlank s.front = false := by
  unfold Surround.FlushLeft at hflush
  unfold ClosedLeft at hclosed
  cases hleft : s.around.left with
  | some l =>
    rw [hleft] at hflush hclosed
    obtain ⟨hstems, hsuffix⟩ := hn.left l.1 l.2 hleft
    obtain ⟨hne, hends⟩ := hstems.ends hclosed hflush
    exact Text.endsBlank_of_suffix hne hends hsuffix
  | none =>
    rw [hleft] at hflush hclosed
    cases hup : s.around.up with
    | some u =>
      rw [hup] at hflush hclosed
      obtain ⟨⟨below, hstems, hempty⟩, hsuffix, -⟩ := hn.up u hup
      have hseen : u.node.Seen p (!below.isEmpty) := by rwa [hempty rfl]
      exact Text.endsBlank_of_suffix (hstems.before_ne_nil hseen) hflush (hsuffix hleft)
    | none =>
      rw [front, (hn.top hup).1 hleft]
      rfl

theorem startsBlank_back (hn : s.around.Near p (.cons s.here s.below s.right))
    (hfirst : ∀ r, s.right.first? = some r → startsBlank r.before = false)
    (hflush : s.right.isEmpty = true → s.around.FlushRight) (hclosed : s.ClosedRight p) :
    startsBlank s.back = false := by
  refine hn.row.2.2.startsBlank_html hclosed.1 hfirst fun hempty => ?_
  cases hup : s.around.up with
  | some u =>
    obtain ⟨⟨below, hstems, -⟩, -, hback⟩ := hn.up u hup
    have hne := hstems.after_ne_nil (hclosed.2 hempty u hup)
    exact Text.startsBlank_of_prefix hne (hflush hempty u hup) hback
  | none =>
    rw [(hn.top hup).2]
    rfl

/-- An element that is trimmed on its left begins with its tag. -/
theorem tag_prefix_text {e : Element} (hn : s.around.Near p (.cons s.here s.below s.right))
    (he : s.here.node.content = .element e) (hbefore : startsBlank s.here.before = false) :
    '<' :: e.tag <+: s.text := by
  obtain ⟨b, t, heq, hb, -⟩ := hn.row.1.before_eq he
  rw [heq, List.append_assoc] at hbefore
  obtain rfl := Text.eq_nil_of_startsBlank hb hbefore
  rw [text, heq]
  simp [Element.startTag, List.append_assoc]

/-- The markup of an element that is trimmed inside and is closed. -/
theorem text_eq {e : Element} (hn : s.around.Near p (.cons s.here s.below s.right))
    (ht : s.Trimmed) (he : s.here.node.content = .element e) (hinner : e.trimsInner = true)
    (hself : e.selfClosing = false) :
    ∃ lead inside trail, s.text = lead ++ e.startTag p ++ inside ++ e.endTag ++ trail ∧
      (∀ x ∈ lead ++ trail, Text.isBlank x = true) ∧
      (e.hasInline = true ∨ s.below.Begins p → startsBlank (inside ++ e.endTag) = false) ∧
      (s.ClosedBelow p → endsBlank (e.startTag p ++ inside) = false) := by
  obtain ⟨hbefore, hafter, hfirst, hlast⟩ := ht.inner (by rw [he]; exact hinner)
  obtain ⟨lead, inline, hb, hlead, hinline⟩ := hn.row.1.before_eq he
  obtain ⟨gap, trail, ha, hgap, htrail⟩ := hn.row.1.after_eq he hself
  rw [ha, List.append_assoc] at hafter
  obtain rfl := Text.eq_nil_of_startsBlank hgap hafter
  have hrow : s.below.Stemmed p := hn.row.2.1 (by rw [he]; rfl)
  refine ⟨lead, inline ++ s.below.html, trail, ?_, ?_, fun hbegins => ?_, fun hclosed => ?_⟩
  · simp [text, hb, ha]
  · intro x hx
    exact (List.mem_append.mp hx).elim (hlead x) (htrail x)
  · cases hi : e.hasInline with
    | true =>
      rw [hi] at hinline
      obtain ⟨y, u, rfl, hy⟩ := hinline
      simpa [startsBlank] using hy
    | false =>
      -- the line end behind the tag has been trimmed, so the row below comes next
      rw [hi] at hinline hbegins
      rw [hb] at hbefore
      obtain rfl := Text.eq_nil_of_endsBlank hinline hbefore
      exact hrow.startsBlank_html (hbegins.resolve_left (by simp)) hfirst fun _ => rfl
  · rw [← List.append_assoc]
    cases hl : s.below.lastTree? with
    | none =>
      rw [Forest.eq_nil_of_lastTree hl]
      rw [hb, List.append_assoc] at hbefore
      refine Text.endsBlank_of_final ⟨lead, ?_⟩ hbefore
      simp [Forest.html, Forest.texts]
    | some l =>
      obtain ⟨hne, hends⟩ := (hrow.lastTree hl).ends (hclosed l hl) (hlast l.1 l.2 hl)
      refine Text.endsBlank_of_suffix hne hends ?_
      exact (Forest.lastTree_suffix hl).trans (List.suffix_append _ _)

end Spot

/-- The flags of an element remove the blanks next to it. With the outer flag, what is in front of
its opening tag does not end in a blank if the node on its left, or else the one above it, ends with
something of its own there; and what is behind it does not start with a blank if the node on its
right begins with something, or else the one above it is closed. With the inner flag, the same holds
behind its opening tag and in front of its closing tag, for its inline content and the nodes below
it. -/
theorem flags_remove_blanks {p : Profile} {t html : Text} (hp : p.settings.outline = false)
    (h : compile p t = .ok html) :
    ∃ f w, parse p t = .ok f ∧ f.written p = .ok w ∧ ∀ s ∈ w.spots {},
      html = s.front ++ s.text ++ s.back ∧ ∀ e, s.here.node.content = .element e →
        (e.trimsOuter = true → '<' :: e.tag <+: s.text ∧
          (s.ClosedLeft p → endsBlank s.front = false) ∧
          (s.ClosedRight p → startsBlank s.back = false)) ∧
        (e.trimsInner = true → e.selfClosing = false → ∃ lead inside trail,
          s.text = lead ++ e.startTag p ++ inside ++ e.endTag ++ trail ∧
          (∀ x ∈ lead ++ trail, Text.isBlank x = true) ∧
          (e.hasInline = true ∨ s.below.Begins p → startsBlank (inside ++ e.endTag) = false) ∧
          (s.ClosedBelow p → endsBlank (e.startTag p ++ inside) = false)) := by
  obtain ⟨f, w, hparse, hw, rfl⟩ := exists_written hp h
  refine ⟨f, w.trim false false, hparse, by rw [Forest.written, hw]; rfl, fun s hs => ?_⟩
  have htrimmed := w.trimmed_spots s hs
  have hnear := Forest.near_spots (Forest.stemmed_trim (read_of_parse hparse) hw _ _) s hs
  refine ⟨by simpa using Forest.html_eq_spot s hs, fun e he => ⟨fun houter => ?_, ?_⟩⟩
  · obtain ⟨hbefore, hleft, hfirst, hright⟩ := htrimmed.outer (by rw [he]; exact houter)
    exact ⟨Spot.tag_prefix_text hnear he hbefore, Spot.endsBlank_front hnear hleft,
      Spot.startsBlank_back hnear hfirst hright⟩
  · exact Spot.text_eq hnear htrimmed he

def items : Text := "%ul\n  %li a\n  %li> b\n  %li c\n%pre<\n  =d\n\n  e".toList

theorem flags_remove_blanks_items :
    ∃ html f w, compile {} items = .ok html ∧ parse {} items = .ok f ∧ f.written {} = .ok w ∧
      (w.spots {}).countP (·.here.node.content.trimsOuter) = 1 ∧
      (w.spots {}).countP (·.here.node.content.trimsInner) = 1 ∧
      ∀ s ∈ w.spots {}, html = s.front ++ s.text ++ s.back ∧
        ∀ e, s.here.node.content = .element e →
          (e.trimsOuter = true → '<' :: e.tag <+: s.text ∧ endsBlank s.front = false ∧
            startsBlank s.back = false) ∧
          (e.trimsInner = true → e.selfClosing = false → ∃ lead inside trail,
            s.text = lead ++ e.startTag {} ++ inside ++ e.endTag ++ trail ∧
            (∀ x ∈ lead ++ trail, Text.isBlank x = true) ∧
            startsBlank (inside ++ e.endTag) = false ∧
            endsBlank (e.startTag {} ++ inside) = false) := by
  have hcheck : (compile {} items).toOption.isSome = true ∧
      (parse {} items >>= fun f => f.written {}).toOption.all (fun w =>
        (w.spots {}).countP (·.here.node.content.trimsOuter) == 1 &&
        ((w.spots {}).countP (·.here.node.content.trimsInner) == 1 &&
        (w.spots {}).all fun s => s.ClosedLeft {} ∧ s.ClosedRight {} ∧ s.below.Begins {} ∧
          s.ClosedBelow {})) = true := by
    decide +kernel
  obtain ⟨hok, hall⟩ := hcheck
  cases hhtml : compile {} items with
  | error e =>
    rw [hhtml] at hok
    cases hok
  | ok html =>
    obtain ⟨f, w, hparse, hw, hspots⟩ := flags_remove_blanks rfl hhtml
    simp only [hparse, bind, Except.bind, hw, Except.toOption, Option.all_some, Bool.and_eq_true,
      beq_iff_eq, List.all_eq_true, decide_eq_true_eq] at hall
    obtain ⟨houter, hinner, hclosed⟩ := hall
    refine ⟨html, f, w, rfl, hparse, hw, houter, hinner, fun s hs => ?_⟩
    obtain ⟨hleft, hright, hbegins, hbelow⟩ := hclosed s hs
    obtain ⟨hsplit, hflags⟩ := hspots s hs
    refine ⟨hsplit, fun e he => ⟨fun h => ?_, fun h hself => ?_⟩⟩
    · obtain ⟨htag, hl, hr⟩ := (hflags e he).1 h
      exact ⟨htag, hl hleft, hr hright⟩
    · obtain ⟨lead, inside, trail, htext, hblank, hi, hb⟩ := (hflags e he).2 h hself
      exact ⟨lead, inside, trail, htext, hblank, hi (.inr hbegins), hb hbelow⟩

/-- Blanks that are left on the four sides of a flag: behind a silent comment, in front of the node
that follows a parent which is not closed, in front of a node that follows a silent comment, and
behind a node below a line of plain text. -/
theorem blanks_left :
    (compile {} "a\n-# c\n%p>".toList = .ok ("a\n".toList ++ "<p></p>".toList) ∧
      endsBlank "a\n".toList = true) ∧
    (compile {} "%d\n  a\n    %p>\n  b".toList =
        .ok ("<d>\n  a<p></p>".toList ++ "  b\n</d>\n".toList) ∧
      startsBlank "  b\n</d>\n".toList = true) ∧
    (compile {} "%p<\n  -# c\n  b".toList = .ok ("<p>".toList ++ "  b</p>\n".toList) ∧
      startsBlank "  b</p>\n".toList = true) ∧
    compile {} "%p<\n  a\n    b".toList = .ok ("<p>a\n    b\n".toList ++ "</p>\n".toList) ∧
      endsBlank "<p>a\n    b\n".toList = true := by
  decide +kernel

end Haml
