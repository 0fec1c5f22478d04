import Haml.Proofs.Forest.Insertion
import Haml.Proofs.Forest.Placement
import Haml.Proofs.Reading.Series
import Mathlib.Data.List.Chain

/-!
Filters and the nodes after them. A filter takes all lines that are indented deeper than it is, so
the node after it is not; main statement: there is never a node below a filter.
-/
namespace Haml

/-! ## The node after a filter -/

def Content.isFilter : Content → Bool
  | filter _ _ => true
  | _ => false

namespace Node

open Reader

variable {p : Profile} {block : Text → Except Failure Text} {q t u rest : Text} {c : Cursor}

theorem margin_of_peekMargin {o : Option Nat} {c' : Cursor} (h : peekMargin c = .ok o c') :
    margin? c.ahead = .ok o ∧ c = c' := by
  unfold peekMargin at h
  split at h
  · next m hm =>
    cases h
    exact ⟨hm, rfl⟩
  · cases h

/-- The deeper lines go on up to a line that is not deeper. -/
theorem stops_of_deeperLines {depth : Nat} {steps : Text} {ls : List Text}
    (h : deeperLines depth steps c = .ok ls ⟨q, rest, 0, 0⟩) : Stops depth rest := by
  induction steps generalizing c ls with
  | nil => cases h
  | cons x steps ih =>
    have hlater : ∀ c₂ : Cursor, (do
        let l ← line
        return Attribute.blankToEmpty l :: (← deeperLines depth steps)) c₂ =
          .ok ls ⟨q, rest, 0, 0⟩ → Stops depth rest := by
      intro c₂ h
      obtain ⟨l, c₃, -, h⟩ := exists_of_bind_eq_ok h
      obtain ⟨ls, c₄, hls, h⟩ := exists_of_bind_eq_ok h
      cases h
      exact ih hls
    obtain ⟨done, c₁, hend, h⟩ := exists_of_bind_eq_ok h
    cases done with
    | true =>
      obtain ⟨hdone, rfl⟩ := EStateM.Result.ok.inj hend
      cases h
      exact .inl (List.isEmpty_iff.mp hdone)
    | false =>
      obtain ⟨margin, c₂, hpeek, h⟩ := exists_of_bind_eq_ok h
      obtain ⟨hmargin, rfl⟩ := margin_of_peekMargin hpeek
      cases margin with
      | none => exact hlater _ h
      | some m =>
        dsimp only at h
        by_cases hm : m ≤ depth
        · rw [if_pos hm] at h
          cases h
          exact .inr ⟨m, hm, hmargin⟩
        · rw [if_neg hm] at h
          exact hlater _ h

theorem isFilter_of_ofLine {l : Text} {content : Content} (h : ofLine p l = .ok content) :
    content.isFilter = false := by
  rcases ofLine_cases h with h | ⟨rfl, _⟩ | ⟨rfl, _⟩
  · simp only [List.map_cons, List.map_nil, List.mem_cons, List.not_mem_nil, or_false] at h
    rcases h with rfl | rfl | rfl | rfl | rfl <;> rfl
  · rfl
  · rfl

/-- The line after a filter is not indented deeper than it is. -/
theorem stops_of_node {indent : Text} {n : Node}
    (h : node p block indent c = .ok n ⟨q, rest, 0, 0⟩)
    (hfilter : n.content.isFilter = true) : Stops n.depth rest := by
  obtain ⟨rfl, ⟨name, body, steps, c₁, -, hbody⟩ | ⟨e, he⟩ | ⟨l, hl⟩⟩ := node_cases h
  · exact stops_of_deeperLines hbody
  · rw [he] at hfilter
    cases hfilter
  · rw [isFilter_of_ofLine hl] at hfilter
    cases hfilter

/-- Where a filter ends, the next node is not indented deeper than it is. -/
theorem depth_le_of_stops {n : Node} {depth : Nat}
    (hn : Reads (next p block) t (0, some n) rest) (h : Stops depth (t ++ rest)) :
    n.depth ≤ depth := by
  obtain ⟨b, u, hb, rfl, ⟨x, v, rfl, -⟩, hindent⟩ := margin_of_reads hn
  rcases h with hnil | ⟨m, hm, hmargin⟩
  · simp at hnil
  · rw [List.append_assoc] at hmargin
    rw [Node.depth, hindent, length_uniform]
    exact (length_le_of_margin? hb hmargin).trans hm

/-- A filter does not end at a blank line. -/
theorem not_stops_blank {b : Text} {depth : Nat} (hb : ∀ x ∈ b, Text.isIndent x = true) :
    ¬ Stops depth (b ++ '\n' :: t) := by
  rintro (hnil | ⟨m, -, hmargin⟩)
  · simp at hnil
  · rw [margin?_append hb] at hmargin
    cases hmargin

/-- A node that comes next after a filter is not indented deeper. -/
def Follows (n m : Node) : Prop := n.content.isFilter = true → m.depth ≤ n.depth

theorem stops_of_reads {n : Node} (hn : Reads (next p block) t (0, some n) rest)
    (hfilter : n.content.isFilter = true) : Stops n.depth rest := by
  obtain ⟨_, c₁, -, h⟩ := exists_of_bind_eq_ok (hn [])
  obtain ⟨⟨blanks, indent⟩, c₂, -, h⟩ := exists_of_bind_eq_ok h
  obtain ⟨done, c₃, -, h⟩ := exists_of_bind_eq_ok h
  cases done with
  | true => cases h
  | false =>
    obtain ⟨m, c₄, hm, h⟩ := exists_of_bind_eq_ok h
    cases h
    exact stops_of_node hm hfilter

theorem Series.follows {ns : List Node} (h : Series p block t ns rest) : ns.IsChain Follows := by
  induction h with
  | nil => exact .nil
  | blank _ _ ih => exact ih
  | @node t u rest n ns hn h ih =>
    rw [List.isChain_cons]
    refine ⟨?_, ih⟩
    intro m hm hfilter
    have hstops := stops_of_reads hn hfilter
    cases h with
    | nil => cases hm
    | blank hb _ => exact absurd hstops (by simpa using not_stops_blank hb)
    | @node t' u' _ n' ns' hn' _ =>
      obtain rfl : n' = m := Option.some.inj hm
      exact depth_le_of_stops hn' (by simpa using hstops)

theorem follows_of_readNodes {nodes : List Node} (h : readNodes p block t = .ok nodes) :
    nodes.IsChain Follows := by
  rw [readNodes] at h
  split at h
  · next hall =>
    cases h
    obtain ⟨u, b, ns, -, -, hseries, hnodes⟩ := series_of_all hall
    have hunspaced : (nodes.map unspaced).IsChain Follows := by
      rw [hnodes, List.isChain_map]
      exact hseries.follows
    rwa [List.isChain_map] at hunspaced
  · cases h

end Node

/-! ## The nodes below a filter -/

namespace Forest

variable {tags : Tags} {f : Forest Node}

/-- The first of the nodes below a node goes below it. -/
def Hung (tags : Tags) : Forest Node → Prop
  | nil => True
  | cons a below others =>
    (∀ b ∈ below.first?, tags.goesBelow a b = true) ∧ Hung tags below ∧ Hung tags others

def FiltersBare : Forest Node → Prop
  | nil => True
  | cons a below others =>
    (a.content.isFilter = true → below = nil) ∧ FiltersBare below ∧ FiltersBare others

theorem first?_add (next : Node) (h : f ≠ nil) : (f.add tags next).first? = f.first? := by
  cases f with
  | nil => exact absurd rfl h
  | cons a below others =>
    cases others with
    | nil =>
      rw [add_last]
      split <;> rfl
    | cons b lower others => rfl

theorem Hung.add (next : Node) (h : f.Hung tags) : (f.add tags next).Hung tags := by
  induction f with
  | nil => exact ⟨by simp [first?], trivial, trivial⟩
  | cons a below others ihb iho =>
    obtain ⟨hfirst, hbelow, hothers⟩ := h
    by_cases hnil : others = nil
    · subst hnil
      rw [add_last]
      split
      · next hgoes =>
        refine ⟨?_, ihb hbelow, trivial⟩
        by_cases hempty : below = nil
        · subst hempty
          rintro b ⟨⟩
          exact hgoes
        · rwa [first?_add next hempty]
      · exact ⟨hfirst, hbelow, by simp [first?], trivial, trivial⟩
    · rw [add_skip tags next a below hnil]
      exact ⟨hfirst, hbelow, iho hothers⟩

theorem hung_ofNodes (tags : Tags) (nodes : List Node) : (ofNodes tags nodes).Hung tags := by
  have hrun : ∀ f : Forest Node, f.Hung tags →
      (nodes.foldl (fun f n => f.add tags n) f).Hung tags := by
    induction nodes with
    | nil => exact fun _ h => h
    | cons n nodes ih => exact fun f h => ih _ (h.add n)
  exact hrun nil trivial

/-- A node below a filter would be the next one after it, and not deeper. -/
theorem Hung.filtersBare (h : f.Hung tags) (hnext : f.toList.IsChain Node.Follows) :
    f.FiltersBare := by
  induction f with
  | nil => trivial
  | cons a below others ihb iho =>
    obtain ⟨hfirst, hbelow, hothers⟩ := h
    have hrest := hnext.tail
    refine ⟨?_, ihb hbelow hrest.left_of_append, iho hothers hrest.right_of_append⟩
    intro hfilter
    cases below with
    | nil => rfl
    | cons b lower row =>
      have hdepth : b.depth ≤ a.depth := hnext.rel hfilter
      have htakes : tags.takes a.content b.content = false := by
        cases hcontent : a.content with
        | filter name body => rfl
        | _ =>
          rw [hcontent] at hfilter
          cases hfilter
      have hgoes := hfirst b rfl
      rw [Tags.goesBelow, htakes, Bool.and_false, Bool.or_false, decide_eq_true_eq] at hgoes
      omega

end Forest

/-- No template has nodes below a filter. -/
theorem filtersBare_of_parse {p : Profile} {t : Text} {f : Forest Node}
    (h : parse p t = .ok f) : f.FiltersBare := by
  obtain ⟨nodes, hnodes, h⟩ := bind_eq_ok h
  obtain rfl := Except.ok.inj h
  apply (Forest.hung_ofNodes p.tags nodes).filtersBare
  rw [Forest.toList_ofNodes]
  exact Node.follows_of_readNodes hnodes

end Haml
