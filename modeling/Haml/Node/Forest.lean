import Haml.Node.Basic
import Haml.Tags

/-!
Forests. A forest is a row of trees: it is empty, or it is a first tree, given by its root and the
forest below the root, and the row of the other trees. A node that comes next is put below the last
root of the row if it is indented deeper, and at the end of the row otherwise.
-/
namespace Haml

inductive Forest (α : Type) where
  | nil
  | cons (root : α) (below : Forest α) (others : Forest α)
  deriving DecidableEq, Repr

namespace Forest

variable {α β : Type}

def isEmpty : Forest α → Bool
  | nil => true
  | cons _ _ _ => false

def first? : Forest α → Option α
  | nil => none
  | cons a _ _ => some a

def last? : Forest α → Option α
  | nil => none
  | cons a _ nil => some a
  | cons _ _ others => last? others

def map (f : α → β) : Forest α → Forest β
  | nil => nil
  | cons a below others => cons (f a) (map f below) (map f others)

/-- The members of a forest, each before those below it and those after it. -/
def toList : Forest α → List α
  | nil => []
  | cons a below others => a :: (toList below ++ toList others)

end Forest

namespace Tags

/-- Whether a tag takes the next node although both have the same indentation. -/
def takes (tags : Tags) (last next : Content) : Bool :=
  match last, next with
  | .tag l, .tag m => tags.belongsIn (tagName l) (tagName m)
  | _, _ => false

/-- Whether `next` goes below `last`, the last root of a row. -/
def goesBelow (tags : Tags) (last next : Node) : Bool :=
  last.depth < next.depth || (last.depth == next.depth && tags.takes last.content next.content)

end Tags

namespace Forest

/-- Puts the next node of a template into the forest of those before it. -/
def add (tags : Tags) (next : Node) : Forest Node → Forest Node
  | nil => cons next nil nil
  | cons a below nil =>
    if tags.goesBelow a next then cons a (add tags next below) nil
    else cons a below (cons next nil nil)
  | cons a below others => cons a below (add tags next others)

def ofNodes (tags : Tags) (nodes : List Node) : Forest Node :=
  nodes.foldl (fun f n => f.add tags n) nil

end Forest

end Haml
