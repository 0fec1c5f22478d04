import Haml.Node.Graph
import Haml.Proofs.Forest.Placement
import Mathlib.Logic.Function.Basic

/-!
The links between the members of a graph to which the nodes of a template are added one after
another. They are followed in a second form: a forest of numbers, and the parent and the children of
each number. Adding a member to the graph is one step of the links, and every step keeps the forest
in the order of the numbers and its indentations in order.
-/
namespace Haml

namespace Graph

open Function (update)

def childrenOf (g : Graph) (i : Nat) : List Nat :=
  match g[i]? with
  | some (some m) => m.children
  | _ => []

def parentOf (g : Graph) (i : Nat) : Option Nat :=
  match g[i]? with
  | some (some m) => m.parent
  | _ => none

/-- The nodes of a template after a root, not linked yet. -/
def fresh (nodes : List Node) : Graph := some {} :: nodes.map fun n => some (.ofNode n)

/-- Adds the first `n` nodes to the root, one after another. -/
def grow (tags : Tags) : Nat → Edit Unit
  | 0 => return
  | n + 1 => do
    grow tags n
    add tags 0 (n + 1)

/-- The root has the number zero; the nodes follow it in their order. -/
def memberAt (nodes : List Node) : Nat → Member
  | 0 => {}
  | i + 1 => (nodes[i]?.map Member.ofNode).getD {}

def nodeAt (nodes : List Node) (i : Nat) : Node :=
  nodes.getD (i - 1) { indent := [], content := .plain [] }

def depthAt (nodes : List Node) (i : Nat) : Int := (memberAt nodes i).depth

/-- Whether `last` takes `next` although both have the same indentation. -/
def takesAt (tags : Tags) (nodes : List Node) (last next : Nat) : Bool :=
  (memberAt nodes last).takes tags (memberAt nodes next)

def linked (nodes : List Node) (up : Nat → Option Nat) (kids : Nat → List Nat) : Graph :=
  (List.range (nodes.length + 1)).map fun i =>
    some { memberAt nodes i with parent := up i, children := kids i }

variable {tags : Tags} {nodes : List Node} {up : Nat → Option Nat} {kids : Nat → List Nat}

/-- The root of all is indented less than every node. -/
theorem depthAt_zero_lt {n : Nat} (hn : n < nodes.length) :
    depthAt nodes 0 < depthAt nodes (n + 1) := by
  have hget : nodes[n]? = some nodes[n] := List.getElem?_eq_getElem hn
  simp only [depthAt, memberAt, hget, Option.map_some, Option.getD_some, Member.depth,
    Member.ofNode]
  omega

theorem getElem?_linked {i : Nat} (hi : i ≤ nodes.length) :
    (linked nodes up kids)[i]? =
      some (some { memberAt nodes i with parent := up i, children := kids i }) := by
  unfold linked
  rw [List.getElem?_map, List.getElem?_range (by omega)]
  rfl

theorem getElem?_linked_eq_none {i : Nat} (hi : nodes.length < i) :
    (linked nodes up kids)[i]? = none := by
  rw [List.getElem?_eq_none]
  simp only [linked, List.length_map, List.length_range]
  omega

theorem length_linked : (linked nodes up kids).length = nodes.length + 1 := by
  simp [linked]

theorem childrenOf_linked {i : Nat} (hi : i ≤ nodes.length) :
    (linked nodes up kids).childrenOf i = kids i := by
  simp [childrenOf, getElem?_linked hi]

theorem parentOf_linked {i : Nat} (hi : i ≤ nodes.length) :
    (linked nodes up kids).parentOf i = up i := by
  simp [parentOf, getElem?_linked hi]

/-- Nodes that are not linked have no parents and no children. -/
theorem fresh_eq_linked (nodes : List Node) :
    fresh nodes = linked nodes (fun _ => none) (fun _ => []) := by
  apply List.ext_getElem?
  intro i
  by_cases hi : i ≤ nodes.length
  · rw [getElem?_linked hi]
    cases i with
    | zero => rfl
    | succ i =>
      have hn : nodes[i]? = some nodes[i] := List.getElem?_eq_getElem (by omega)
      simp [fresh, memberAt, hn, Member.ofNode]
  · rw [getElem?_linked_eq_none (by omega), List.getElem?_eq_none]
    simp only [fresh, List.length_cons, List.length_map]
    omega

theorem member_linked {i : Nat} (hi : i ≤ nodes.length) :
    member i (linked nodes up kids) =
      .ok { memberAt nodes i with parent := up i, children := kids i } (linked nodes up kids) := by
  have hget : (get : Edit Graph) (linked nodes up kids) =
      .ok (linked nodes up kids) (linked nodes up kids) := rfl
  simp only [member, member?, bind, EStateM.bind, hget, getElem?_linked hi]
  rfl

/-- A change of one member changes the links of its number only. -/
theorem change_linked {up' : Nat → Option Nat} {kids' : Nat → List Nat} (j : Nat)
    (h : Member → Member)
    (hj : h { memberAt nodes j with parent := up j, children := kids j } =
      { memberAt nodes j with parent := up' j, children := kids' j })
    (hne : ∀ i, i ≠ j → up' i = up i ∧ kids' i = kids i) :
    change j h (linked nodes up kids) = .ok () (linked nodes up' kids') := by
  have he : (linked nodes up kids).modify j (Option.map h) = linked nodes up' kids' := by
    apply List.ext_getElem?
    intro i
    rw [List.getElem?_modify]
    by_cases hi : i ≤ nodes.length
    · rw [getElem?_linked hi, getElem?_linked hi]
      by_cases hij : j = i
      · subst hij; simp [hj]
      · obtain ⟨hup, hkids⟩ := hne i (Ne.symm hij)
        simp [hij, hup, hkids]
    · rw [getElem?_linked_eq_none (by omega), getElem?_linked_eq_none (by omega)]
      rfl
  exact congrArg (EStateM.Result.ok ()) he

/-- Adding a child sets its parent and puts it last below that one. -/
theorem addChild_linked {p c : Nat} (hp : p ≤ nodes.length) (hc : c ≤ nodes.length) :
    addChild p c (linked nodes up kids) =
      .ok () (linked nodes (update up c (some p)) (update kids p (kids p ++ [c]))) := by
  have hup : change c (fun m => { m with parent := some p }) (linked nodes up kids) =
      .ok () (linked nodes (update up c (some p)) kids) :=
    change_linked c _ (by simp) fun i hi => ⟨by simp [hi], rfl⟩
  have hkids : change p (fun m => { m with children := m.children ++ [c] })
      (linked nodes (update up c (some p)) kids) =
      .ok () (linked nodes (update up c (some p)) (update kids p (kids p ++ [c]))) :=
    change_linked p _ (by simp) fun i hi => ⟨rfl, by simp [hi]⟩
  simp only [addChild, bind, EStateM.bind, member_linked hp, member_linked hc, hup, hkids]

/-- The descent through the graph is the descent through the forest that it holds. -/
theorem addBelow_linked {f : Forest Nat} {level p next : Nat} (hf : f.Hangs kids)
    (hlast : (kids p).getLast? = f.last?) (hb : ∀ i ∈ p :: f.toList, i ≤ nodes.length)
    (hnext : next ≤ nodes.length) (hlevel : f.toList.length < level) :
    let q := f.landing (Forest.fits (depthAt nodes) (takesAt tags nodes) · next) p
    addBelow tags level p next (linked nodes up kids) =
      .ok () (linked nodes (update up next (some q)) (update kids q (kids q ++ [next]))) := by
  intro q
  induction f generalizing level p with
  | nil =>
    obtain ⟨level, rfl⟩ : ∃ l, level = l + 1 := ⟨level - 1, by simp at hlevel; omega⟩
    have hkids : (kids p).getLast? = none := hlast
    simp only [addBelow, bind, EStateM.bind, member_linked hnext, member_linked (hb p (by simp)),
      hkids, addChild_linked (hb p (by simp)) hnext]
    rfl
  | cons a below others ihb iho =>
    by_cases hn : others = .nil
    · subst hn
      obtain ⟨ha, hfb, _⟩ := hf
      obtain ⟨level, rfl⟩ : ∃ l, level = l + 1 := ⟨level - 1, by simp at hlevel; omega⟩
      have hkids : (kids p).getLast? = some a := hlast
      have hal : a ≤ nodes.length := hb a (by simp)
      simp only [addBelow, bind, EStateM.bind, member_linked hnext, member_linked (hb p (by simp)),
        hkids, member_linked hal]
      rw [show goesBelow tags { memberAt nodes a with parent := up a, children := kids a }
          { memberAt nodes next with parent := up next, children := kids next } =
        Forest.fits (depthAt nodes) (takesAt tags nodes) a next from rfl]
      cases hg : Forest.fits (depthAt nodes) (takesAt tags nodes) a next with
      | true =>
        have hq : q =
            below.landing (Forest.fits (depthAt nodes) (takesAt tags nodes) · next) a := by
          simp only [q, Forest.landing_last, hg, if_true]
        rw [if_pos rfl, hq]
        refine ihb hfb ?_ ?_ ?_
        · rw [ha, Forest.getLast?_roots]
        · intro i hi
          exact hb i (List.mem_cons_of_mem p (by simpa using hi))
        · simp at hlevel
          omega
      | false =>
        have hq : q = p := by
          simp only [q, Forest.landing_last, hg]
          rfl
        rw [if_neg Bool.false_ne_true, hq]
        exact addChild_linked (hb p (by simp)) hnext
    · have hq : q = others.landing (Forest.fits (depthAt nodes) (takesAt tags nodes) · next) p :=
        Forest.landing_skip _ _ _ _ hn
      rw [hq]
      refine iho hf.2.2 ?_ ?_ ?_
      · rw [hlast, Forest.last?_skip a below hn]
      · intro i hi
        refine hb i ?_
        rcases List.mem_cons.mp hi with hi | hi
        · simp [hi]
        · simp [hi]
      · simp at hlevel
        omega

/-- A forest of numbers, and the parent and the children of each number. -/
structure Links where
  forest : Forest Nat
  up : Nat → Option Nat
  kids : Nat → List Nat

namespace Links

def target (tags : Tags) (nodes : List Node) (s : Links) (next : Nat) : Nat :=
  s.forest.landing (Forest.fits (depthAt nodes) (takesAt tags nodes) · next) 0

def step (tags : Tags) (nodes : List Node) (s : Links) (next : Nat) : Links :=
  let q := s.target tags nodes next
  { forest := s.forest.place (Forest.fits (depthAt nodes) (takesAt tags nodes) · next) next
    up := update s.up next (some q)
    kids := update s.kids q (s.kids q ++ [next]) }

def run (tags : Tags) (nodes : List Node) : Nat → Links
  | 0 => { forest := .nil, up := fun _ => none, kids := fun _ => [] }
  | n + 1 => step tags nodes (run tags nodes n) (n + 1)

def graph (nodes : List Node) (s : Links) : Graph := linked nodes s.up s.kids

/-- What holds of the links after `n` nodes. -/
structure Sound (tags : Tags) (nodes : List Node) (n : Nat) (s : Links) : Prop where
  spans : s.kids 0 = s.forest.roots
  hangs : s.forest.Hangs s.kids
  order : s.forest.toList = List.range' 1 n
  ordered : s.forest.Ordered (depthAt nodes) (takesAt tags nodes) 0
  shape : s.forest.map (nodeAt nodes) = Forest.ofNodes tags (nodes.take n)
  linked : ∀ i p, s.up i = some p ↔ i ∈ s.kids p
  unlinked : ∀ i, n < i → s.up i = none ∧ s.kids i = []

theorem sound_zero (tags : Tags) (nodes : List Node) : Sound tags nodes 0 (run tags nodes 0) := by
  refine ⟨rfl, trivial, rfl, trivial, rfl, ?_, ?_⟩
  · intro i p
    simp [run]
  · intro i _
    exact ⟨rfl, rfl⟩

variable {n : Nat} {s : Links}

theorem mem_forest (hs : Sound tags nodes n s) {i : Nat} :
    i ∈ 0 :: s.forest.toList ↔ i ≤ n := by
  rw [hs.order, List.mem_cons, List.mem_range'_1]
  omega

theorem fits_nodeAt (tags : Tags) {nodes : List Node} {a next : Nat} (ha : 1 ≤ a)
    (ha' : a ≤ nodes.length) (hn : 1 ≤ next) (hn' : next ≤ nodes.length) :
    Forest.fits (depthAt nodes) (takesAt tags nodes) a next =
      tags.goesBelow (nodeAt nodes a) (nodeAt nodes next) := by
  have hmember : ∀ i, 1 ≤ i → i ≤ nodes.length →
      memberAt nodes i = Member.ofNode (nodeAt nodes i) := by
    intro i hi hi'
    obtain ⟨i, rfl⟩ : ∃ j, i = j + 1 := ⟨i - 1, by omega⟩
    have hget : nodes[i]? = some nodes[i] := List.getElem?_eq_getElem (by omega)
    simp [memberAt, nodeAt, hget]
  simp only [Forest.fits, Tags.goesBelow, depthAt, takesAt, hmember a ha ha',
    hmember next hn hn', Member.depth, Member.ofNode, Member.takes, Node.depth]
  congr 1
  · exact decide_eq_decide.mpr Int.ofNat_lt
  · congr 1
    rw [Bool.eq_iff_iff, beq_iff_eq, beq_iff_eq]
    exact Int.ofNat_inj

theorem target_le (hs : Sound tags nodes n s) (next : Nat) : s.target tags nodes next ≤ n :=
  (mem_forest hs).mp (Forest.landing_mem _ 0 s.forest)

theorem shape_step (hs : Sound tags nodes n s) (hn : n < nodes.length) :
    (s.step tags nodes (n + 1)).forest.map (nodeAt nodes) =
      Forest.ofNodes tags (nodes.take (n + 1)) := by
  have hplace : (s.step tags nodes (n + 1)).forest =
      s.forest.place (fun a => tags.goesBelow (nodeAt nodes a) (nodeAt nodes (n + 1))) (n + 1) := by
    apply Forest.place_congr
    intro a ha
    rw [hs.order, List.mem_range'_1] at ha
    exact fits_nodeAt tags (by omega) (by omega) (by omega) (by omega)
  have hnode : nodeAt nodes (n + 1) = nodes[n] := by simp [nodeAt, hn]
  rw [hplace, Forest.map_place, hs.shape, hnode, List.take_succ_eq_append_getElem hn]
  unfold Forest.ofNodes
  rw [List.foldl_append]
  rfl

theorem linked_step (hs : Sound tags nodes n s) (i p : Nat) :
    (s.step tags nodes (n + 1)).up i = some p ↔ i ∈ (s.step tags nodes (n + 1)).kids p := by
  simp only [step, Function.update_apply]
  by_cases hi : i = n + 1
  · subst hi
    have hnone : ∀ p, n + 1 ∉ s.kids p := by
      intro p hm
      have := (hs.linked (n + 1) p).mpr hm
      rw [(hs.unlinked (n + 1) (by omega)).1] at this
      exact absurd this (by simp)
    rw [if_pos rfl]
    by_cases hp : p = s.target tags nodes (n + 1)
    · simp [hp]
    · simp [hp, Ne.symm hp, hnone]
  · rw [if_neg hi, hs.linked]
    split
    · next he => simp [he, hi]
    · rfl

/-- Linking the next node keeps the links sound. -/
theorem sound_step (hs : Sound tags nodes n s) (hn : n < nodes.length) :
    Sound tags nodes (n + 1) (s.step tags nodes (n + 1)) := by
  have hnotin : n + 1 ∉ 0 :: s.forest.toList := by
    rw [mem_forest hs]
    omega
  have hnodup : (0 :: s.forest.toList).Nodup := by
    rw [hs.order, List.nodup_cons]
    exact ⟨by simp, List.nodup_range'⟩
  refine ⟨?_, ?_, ?_, ?_, shape_step hs hn, linked_step hs, ?_⟩
  · -- a new root is the last child of the root of all
    simp only [step]
    rw [Forest.roots_place _ 0 _ _ (List.nodup_cons.mp hnodup).1, ← hs.spans]
    show _ = if s.target tags nodes (n + 1) = 0 then _ else _
    by_cases he : s.target tags nodes (n + 1) = 0
    · rw [he, if_pos rfl, Function.update_self]
    · rw [if_neg he, Function.update_of_ne (Ne.symm he)]
  · refine Forest.hangs_place _ 0 _ _ s.kids _ hs.hangs hnodup hnotin
      (hs.unlinked (n + 1) (by omega)).2 fun a => ?_
    simp only [step, target, Function.update_apply]
    split
    · next he => rw [he]
    · rfl
  · simp only [step]
    rw [Forest.toList_place, hs.order, List.range'_concat]
    simp [Nat.add_comm]
  · exact Forest.ordered_place hs.ordered (Forest.fits_iff.mpr (Or.inl (depthAt_zero_lt hn)))
  · intro i hi
    have hq := target_le hs (n + 1)
    simp only [step]
    rw [Function.update_of_ne (by omega), Function.update_of_ne (by omega)]
    exact hs.unlinked i (by omega)

/-- Adding a node to the graph is a step of the links. -/
theorem add_graph (hs : Sound tags nodes n s) (hn : n < nodes.length) :
    add tags 0 (n + 1) (s.graph nodes) = .ok () ((s.step tags nodes (n + 1)).graph nodes) := by
  have hlen : s.forest.toList.length < nodes.length + 2 := by
    rw [hs.order, List.length_range']
    omega
  have hlast : (s.kids 0).getLast? = s.forest.last? := by rw [hs.spans, Forest.getLast?_roots]
  have hb : ∀ i ∈ 0 :: s.forest.toList, i ≤ nodes.length := by
    intro i hi
    have := (mem_forest hs).mp hi
    omega
  have h : addBelow tags (nodes.length + 2) 0 (n + 1) (s.graph nodes) =
      .ok () ((s.step tags nodes (n + 1)).graph nodes) :=
    addBelow_linked hs.hangs hlast hb (by omega) hlen
  have hlevels : levels (s.graph nodes) = .ok (nodes.length + 2) (s.graph nodes) := by
    show EStateM.Result.ok ((s.graph nodes).length + 1) (s.graph nodes) = _
    rw [graph, length_linked]
  simp only [add, bind, EStateM.bind, hlevels]
  exact h

/-- Growing the graph runs the links. -/
theorem grow_graph (tags : Tags) (nodes : List Node) (n : Nat) (hn : n ≤ nodes.length) :
    grow tags n (fresh nodes) = .ok () ((run tags nodes n).graph nodes) ∧
      Sound tags nodes n (run tags nodes n) := by
  induction n with
  | zero => exact ⟨congrArg (EStateM.Result.ok ()) (fresh_eq_linked nodes), sound_zero tags nodes⟩
  | succ n ih =>
    obtain ⟨hgrow, hs⟩ := ih (by omega)
    refine ⟨?_, sound_step hs (by omega)⟩
    simp only [grow, bind, EStateM.bind, hgrow]
    exact add_graph hs (by omega)

/-- What is linked stays as it is when later nodes are added. -/
theorem run_up (tags : Tags) (nodes : List Node) {i n : Nat} (hi : i < n) :
    (run tags nodes n).up (i + 1) = (run tags nodes (i + 1)).up (i + 1) := by
  induction n with
  | zero => omega
  | succ n ih =>
    by_cases he : i = n
    · rw [he]
    · rw [← ih (by omega)]
      simp only [run, step]
      rw [Function.update_of_ne (by omega)]

end Links

end Graph

end Haml
