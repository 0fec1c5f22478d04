import Haml.Node.Faces
import Haml.Node.Forest

/-!
Markup of a forest. First every node is given its two texts; then the flags of elements trim the
texts of the nodes next to them; then the texts are joined, those of a node around those of the
nodes below it.
-/
namespace Haml

/-- A node and the two texts written for it. -/
structure Written where
  node : Node
  before : Text := []
  after : Text := []
  deriving DecidableEq, Repr

namespace Forest

/-- Gives every node its texts. The nodes below one that does not show them have none. -/
def write (p : Profile) : Forest Node → Except Failure (Forest Written)
  | nil => .ok nil
  | cons n below others => do
    let f ← n.faces p (!below.isEmpty)
    let below' ←
      if n.content.showsChildren then write p below else pure (below.map fun m => { node := m })
    let others' ← write p others
    return cons { node := n, before := f.before.getD [], after := f.after.getD [] } below' others'

def firstTrims (f : Forest Written) : Bool := f.first?.any (·.node.content.trimsOuter)

def lastTrims (f : Forest Written) : Bool := f.last?.any (·.node.content.trimsOuter)

end Forest

/-- A text without the blanks at the ends that are to be trimmed. -/
def trimEnds (left right : Bool) (t : Text) : Text :=
  let t := if left then Text.trimLeft t else t
  if right then Text.trimRight t else t

/-- Where the two texts of a node are trimmed. -/
structure Trims where
  /-- At the start of the text before. -/
  outerLeft : Bool
  /-- At the end of the text before. -/
  innerLeft : Bool
  /-- At the start of the text after. -/
  innerRight : Bool
  /-- At the end of the text after. -/
  outerRight : Bool
  /-- Whether the blank lines after the node are forgotten. -/
  newlines : Bool

def Trims.apply (t : Trims) (w : Written) : Written where
  node := if t.newlines then { w.node with newlines := 0 } else w.node
  before := trimEnds t.outerLeft t.innerLeft w.before
  after := trimEnds t.innerRight t.outerRight w.after

namespace Forest

/-- Where a root is trimmed: by itself, by the one on its left or by its parent (`left`), by the
ones on its right (`others`) or by its parent if there are none (`inner`), and by those below it. -/
def trims (inner left : Bool) (w : Written) (below others : Forest Written) : Trims :=
  let heeded := if w.node.content.trimsChildren then below else nil
  { outerLeft := left || w.node.content.trimsOuter
    innerLeft := w.node.content.trimsInner || heeded.firstTrims
    innerRight := w.node.content.trimsInner || heeded.lastTrims
    outerRight := w.node.content.trimsOuter || others.firstTrims || (inner && others.isEmpty)
    newlines := others.firstTrims || heeded.firstTrims || heeded.lastTrims }

/-- Trims a row whose parent trims inside itself if `inner` holds; `left` says whether what stands
on its left trims the first root. -/
def trim (inner left : Bool) : Forest Written → Forest Written
  | nil => nil
  | cons w below others =>
    cons ((trims inner left w below others).apply w)
      (if w.node.content.trimsChildren then
        trim w.node.content.trimsInner w.node.content.trimsInner below
      else below)
      (trim inner w.node.content.trimsOuter others)

/-- The texts of a row in their order, those of a node around those of the nodes below it. -/
def texts : Forest Written → List Text
  | nil => []
  | cons w below others => w.before :: (texts below ++ w.after :: texts others)

def html (f : Forest Written) : Text := f.texts.flatten

/-- The texts of all nodes as they appear in the markup. -/
def written (p : Profile) (f : Forest Node) : Except Failure (Forest Written) :=
  (f.write p).map (trim false false)

def render (p : Profile) (f : Forest Node) : Except Failure Text := (f.written p).map html

end Forest

end Haml
