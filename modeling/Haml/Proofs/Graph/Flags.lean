import Haml.Proofs.Graph.Links
import Haml.Proofs.Markup.Essence
import Haml.Proofs.Markup.Nesting

/-!
White space flags. They change nothing but blanks: two trees that differ in the flags of their
elements are rendered to texts that are the same without blanks, or both fail in the same way. Every
step of a rendering is followed on both trees at once. What is compared of two graphs is what is
left of them without flags, line breaks and blanks; the edits that a flag makes are not seen in it.
-/
namespace Haml

/-! ## Elements without their flags -/

def Element.unflagged (e : Element) : Element := { e with trimsOuter := false, trimsInner := false }

namespace Content

variable {p : Profile} {breaks : Text}

def unflagged : Content → Content
  | element e => element e.unflagged
  | c => c

end Content

/-! ## Graphs without their flags -/

namespace Member

def unflagged (m : Member) : Member :=
  { m with body := m.body.map fun b => (b.1, b.2.unflagged) }

/-- A member without flags, line breaks and blanks. -/
def bare (m : Member) : Member :=
  { m.unflagged with newlines := 0, before := squeeze m.before, after := squeeze m.after }

/-- A member without flags and line breaks and without its texts. -/
def frame (m : Member) : Member := { m.unflagged with newlines := 0, before := [], after := [] }

def put (f : Faces) (m : Member) : Member :=
  { m with before := f.before.getD m.before, after := f.after.getD m.after }

theorem squeeze_breaks (m : Member) : squeeze m.breaks = [] := by
  apply squeeze_eq_nil
  intro x hx
  rw [List.eq_of_mem_replicate hx]
  decide

end Member

namespace Graph

variable {g g' F : Graph} {i : Nat} {α β γ δ : Type}

def unflagged (g : Graph) : Graph := g.map (Option.map Member.unflagged)

def bare (g : Graph) : Graph := g.map (Option.map Member.bare)

def frame (g : Graph) : Graph := g.map (Option.map Member.frame)

/-- Every child of a member has it as its parent. -/
def Linked (g : Graph) : Prop := ∀ i < g.length, ∀ c ∈ g.childrenOf i, g.parentOf c = some i

/-- The member, if there is one, holds nothing. -/
def IsRoot (g : Graph) (i : Nat) : Prop := ∀ m, g[i]? = some (some m) → m.body = none

def outcome (x : Edit α) (g : Graph) : Except Failure α :=
  match x g with
  | .ok a _ => .ok a
  | .error e _ => .error e

/-- Two outcomes of edits that look alike: both are values that look alike, with graphs that are the
same but for flags and blanks and have the frame `F`, or both are the same failure. -/
def Concur (F : Graph) (v : α → γ) :
    EStateM.Result Failure Graph α → EStateM.Result Failure Graph α → Prop
  | .ok a h, .ok a' h' => v a' = v a ∧ h'.bare = h.bare ∧ h.frame = F
  | .error e _, .error e' _ => e' = e
  | _, _ => False

theorem Concur.bind {x x' : Edit α} {f f' : α → Edit β} {v : α → γ} {w : β → δ}
    (hx : Concur F v (x g) (x' g'))
    (hf : ∀ a a' h h', v a' = v a → h'.bare = h.bare → h.frame = F →
      Concur F w (f a h) (f' a' h')) :
    Concur F w ((x >>= f) g) ((x' >>= f') g') := by
  simp only [Bind.bind, EStateM.bind]
  cases hr : x g <;> cases hr' : x' g' <;> rw [hr, hr'] at hx
  · exact hf _ _ _ _ hx.1 hx.2.1 hx.2.2
  · exact False.elim hx
  · exact False.elim hx
  · exact hx

theorem member_eq (i : Nat) (g : Graph) :
    member i g = match g[i]? with
      | some (some m) => .ok m g
      | some none => .error .notMade g
      | none => .error .noSuchNumber g := by
  have hget : (get : Edit Graph) g = .ok g g := rfl
  simp only [member, member?, bind, EStateM.bind, hget]
  cases g[i]? with
  | none => rfl
  | some m => cases m <;> rfl

theorem childrenOf_frame (g : Graph) (i : Nat) : g.frame.childrenOf i = g.childrenOf i := by
  rw [childrenOf, childrenOf, frame, List.getElem?_map]
  cases g[i]? with
  | none => rfl
  | some m => cases m <;> rfl

theorem parentOf_frame (g : Graph) (i : Nat) : g.frame.parentOf i = g.parentOf i := by
  rw [parentOf, parentOf, frame, List.getElem?_map]
  cases g[i]? with
  | none => rfl
  | some m => cases m <;> rfl

def Held (g : Graph) (i : Nat) : Prop := ∃ q, g.parentOf i = some q ∧ i ∈ g.childrenOf q

/-- A number that is held has a member with a place in a row. -/
theorem Held.row (h : g.Held i) : ∃ m q r, member i g = .ok m g ∧ m.parent = some q ∧
    Graph.row i g = .ok r g := by
  obtain ⟨q, hparent, hchild⟩ := h
  obtain ⟨m, hm, hq⟩ : ∃ m, g[i]? = some (some m) ∧ m.parent = some q := by
    unfold parentOf at hparent
    split at hparent
    · next m hm => exact ⟨m, hm, hparent⟩
    · cases hparent
  obtain ⟨mq, hmq⟩ : ∃ m, g[q]? = some (some m) := by
    unfold childrenOf at hchild
    split at hchild
    · next m hm => exact ⟨m, hm⟩
    · cases hchild
  have hmember : member i g = .ok m g := by rw [member_eq, hm]
  have hmember' : member q g = .ok mq g := by rw [member_eq, hmq]
  refine ⟨m, q, (mq.children, mq.children.idxOf i), hmember, hq, ?_⟩
  simp only [Graph.row, bind, EStateM.bind, hmember, hq, hmember']
  rfl

/-! ## The edits of a flag -/

/-- An edit that succeeds and changes nothing but blanks and line breaks. -/
def Quiet (x : Edit Unit) (g : Graph) : Prop := ∃ h, x g = .ok () h ∧ h.bare = g.bare

theorem Quiet.bind {x : Edit Unit} {f : Unit → Edit Unit} (hx : Quiet x g)
    (hf : ∀ h, h.bare = g.bare → Quiet (f ()) h) : Quiet (x >>= f) g := by
  obtain ⟨h, hok, hbare⟩ := hx
  obtain ⟨h', hok', hbare'⟩ := hf h hbare
  refine ⟨h', ?_, hbare'.trans hbare⟩
  simp only [Bind.bind, EStateM.bind, hok, hok']

/-- An edit after one that only looks something up. -/
theorem Quiet.look {x : Edit α} {f : α → Edit Unit} {a : α} (hx : x g = .ok a g)
    (hf : Quiet (f a) g) : Quiet (x >>= f) g := by
  obtain ⟨h, hok, hbare⟩ := hf
  refine ⟨h, ?_, hbare⟩
  simp only [Bind.bind, EStateM.bind, hx, hok]

theorem Linked.frame (h : g.Linked) : g.frame.Linked := by
  intro i hi c hc
  rw [Graph.frame, List.length_map] at hi
  rw [childrenOf_frame] at hc
  rw [parentOf_frame]
  exact h i hi c hc

theorem IsRoot.frame (h : g.IsRoot i) : g.frame.IsRoot i := by
  intro m hm
  rw [Graph.frame, List.getElem?_map] at hm
  obtain ⟨o, ho, hmap⟩ := Option.map_eq_some_iff.mp hm
  obtain ⟨m, rfl, rfl⟩ := Option.map_eq_some_iff.mp hmap
  exact Option.map_eq_none_iff.mpr (h m ho)

end Graph

end Haml
