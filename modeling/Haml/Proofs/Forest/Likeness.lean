import Haml.Proofs.Forest.Insertion
import Mathlib.Data.List.Forall2

/-!
Forests of the same shape whose members correspond. If the next members go to corresponding places,
the forests of two templates are alike as soon as the nodes of the templates are.
-/
namespace Haml.Forest

variable {α β γ : Type} {R : α → β → Prop} {f : Forest α} {g : Forest β}

/-- Two forests of the same shape, with members that stand in the relation `R`. -/
inductive Like (R : α → β → Prop) : Forest α → Forest β → Prop
  | nil : Like R nil nil
  | cons {a : α} {b : β} {below others : Forest α} {below' others' : Forest β} (h : R a b)
      (hbelow : Like R below below') (hothers : Like R others others') :
      Like R (cons a below others) (cons b below' others')

theorem Like.isEmpty_eq (h : Like R f g) : g.isEmpty = f.isEmpty := by
  cases h <;> rfl

theorem Like.map {δ : Type} {R' : γ → δ → Prop} {k : α → γ} {k' : β → δ} (h : Like R f g)
    (hk : ∀ a b, R a b → R' (k a) (k' b)) : Like R' (f.map k) (g.map k') := by
  induction h with
  | nil => exact .nil
  | cons hab _ _ ihb iho => exact .cons (hk _ _ hab) ihb iho

theorem Like.toList (h : Like R f g) : List.Forall₂ R f.toList g.toList := by
  induction h with
  | nil => exact .nil
  | cons hab _ _ ihb iho => exact .cons hab (List.rel_append ihb iho)

theorem Like.map_eq {k : α → γ} {k' : β → γ} (h : Like R f g) (hk : ∀ a b, R a b → k' b = k a) :
    g.map k' = f.map k := by
  induction h with
  | nil => rfl
  | cons hab _ _ ihb iho => rw [Forest.map, Forest.map, hk _ _ hab, ihb, iho]

/-- Corresponding members are put into corresponding places. -/
theorem Like.add {R : Node → Node → Prop} {f g : Forest Node} {tags : Tags} {n m : Node}
    (h : Like R f g) (hn : R n m)
    (hgoes : ∀ a b, R a b → tags.goesBelow b m = tags.goesBelow a n) :
    Like R (f.add tags n) (g.add tags m) := by
  induction h with
  | nil => exact .cons hn .nil .nil
  | @cons a b below others below' others' hab hbelow hothers ihb iho =>
    cases hothers with
    | nil =>
      rw [Forest.add, Forest.add, hgoes a b hab]
      split
      · exact .cons hab ihb .nil
      · exact .cons hab hbelow (.cons hn .nil .nil)
    | cons hcd hlower hrest =>
      rw [add_skip tags n a below (by simp), add_skip tags m b below' (by simp)]
      exact .cons hab hbelow iho

/-- Corresponding nodes of two templates make forests that are alike. -/
theorem like_ofNodes {R : Node → Node → Prop} {tags : Tags} {ns ms : List Node}
    (h : List.Forall₂ R ns ms)
    (hgoes : ∀ a b n m, R a b → R n m → tags.goesBelow b m = tags.goesBelow a n) :
    Like R (ofNodes tags ns) (ofNodes tags ms) := by
  have hrun : ∀ f g, Like R f g →
      Like R (ns.foldl (fun f n => f.add tags n) f) (ms.foldl (fun g m => g.add tags m) g) := by
    induction h with
    | nil => exact fun _ _ hfg => hfg
    | cons hn _ ih =>
      intro f g hfg
      exact ih _ _ (hfg.add hn fun a b hab => hgoes a b _ _ hab hn)
  exact hrun nil nil .nil

end Haml.Forest
