import Haml.Node.Markup
import Haml.Node.Outline

/-!
Graphs of nodes that are linked by hand. Nodes are numbered; a node may be put below several others,
or below one of them twice, and its parent is the one that took it last. The texts of a node stay
from one rendering to the next.
-/
namespace Haml

/-- A member of a graph: a node, or a root, which has no content. -/
structure Member where
  body : Option (Text × Content) := none
  /-- The number of blank lines after the member; less than none leaves out its line end too. -/
  newlines : Int := 0
  before : Text := []
  after : Text := []
  parent : Option Nat := none
  children : List Nat := []
  deriving DecidableEq, Repr

namespace Member

def ofNode (n : Node) : Member := { body := some (n.indent, n.content), newlines := n.newlines }

/-- The indentation of a member; a root stands before all others. -/
def depth (m : Member) : Int :=
  match m.body with
  | some b => b.1.length
  | none => -1

def breaks (m : Member) : Text := List.replicate (m.newlines + 1).toNat '\n'

def takes (tags : Tags) (m next : Member) : Bool :=
  match m.body, next.body with
  | some a, some b => tags.takes a.2 b.2
  | _, _ => false

/-- A member on a line of an outline. -/
def outlineRow (m : Member) : Text :=
  match m.body with
  | some b => b.2.outlineRow b.1.length m.newlines
  | none => rootRow

end Member

/-- The members by number. A number can be without a member. -/
abbrev Graph := List (Option Member)

namespace Graph

/-- Actions on a graph that may fail; what they did before that stays. -/
abbrev Edit (α : Type) := EStateM Failure Graph α

/-- The member of a number that was given out, if it has one. -/
def member? (i : Nat) : Edit (Option Member) := do
  match (← get)[i]? with
  | some m => return m
  | none => throw .noSuchNumber

def member (i : Nat) : Edit Member := do
  match ← member? i with
  | some m => return m
  | none => throw .notMade

def change (i : Nat) (f : Member → Member) : Edit Unit :=
  modify fun g => g.modify i (Option.map f)

/-- Adds a member, or a number without one. -/
def insert (m : Option Member) : Edit Nat := do
  let g ← get
  set (g ++ [m])
  return g.length

def levels : Edit Nat := do return (← get).length + 1

def addChild (parent child : Nat) : Edit Unit := do
  let _ ← member parent
  let _ ← member child
  change child fun m => { m with parent := some parent }
  change parent fun m => { m with children := m.children ++ [child] }

def goesBelow (tags : Tags) (last next : Member) : Bool :=
  last.depth < next.depth || (last.depth == next.depth && last.takes tags next)

/-- Puts a member below another or, if it is indented deeper, below the last one that is there. -/
def addBelow (tags : Tags) : Nat → Nat → Nat → Edit Unit
  | 0, _, _ => throw .stalled
  | level + 1, parent, child => do
    let m ← member child
    match (← member parent).children.getLast? with
    | none => addChild parent child
    | some last =>
      if goesBelow tags (← member last) m then addBelow tags level last child
      else addChild parent child

/-- Adds a member as the next one of a template. -/
def add (tags : Tags) (parent child : Nat) : Edit Unit := do
  addBelow tags (← levels) parent child

/-- The row that a member stands in, and its first place there. -/
def row (i : Nat) : Edit (List Nat × Nat) := do
  match (← member i).parent with
  | none => throw .orphan
  | some p =>
    let row := (← member p).children
    return (row, row.idxOf i)

def leftSibling (i : Nat) : Edit (Option Nat) := do
  let (row, place) ← row i
  return if place = 0 then none else row[place - 1]?

def rightSibling (i : Nat) : Edit (Option Nat) := do
  let (row, place) ← row i
  return row[place + 1]?

/-- Writes the texts of a member and of those below it. -/
def write (p : Profile) : Nat → Nat → Edit Unit
  | 0, _ => throw .stalled
  | level + 1, i => do
    let m ← member i
    match m.body with
    | none => throw .rootBelow
    | some (indent, content) =>
      match content.faces p indent m.breaks (!m.children.isEmpty) with
      | .error e => throw e
      | .ok f =>
        change i fun m => { m with before := f.before.getD m.before, after := f.after.getD m.after }
        if content.showsChildren then m.children.forM (write p level)

def trimInner (i : Nat) : Edit Unit := do
  change i fun m => { m with before := Text.trimRight m.before, after := Text.trimLeft m.after }
  let children := (← member i).children
  match children.head?, children.getLast? with
  | some first, some last =>
    change first fun m => { m with before := Text.trimLeft m.before }
    change last fun m => { m with after := Text.trimRight m.after }
  | _, _ => return

def trimOuter (i : Nat) : Edit Unit := do
  let left ← leftSibling i
  let parent := ((← member i).parent).getD i
  match left with
  | some l => change l fun m => { m with after := Text.trimRight m.after, newlines := 0 }
  | none => change parent fun m => { m with before := Text.trimRight m.before, newlines := 0 }
  change i fun m => { m with before := Text.trimLeft m.before, after := Text.trimRight m.after }
  match ← rightSibling i with
  | some r => change r fun m => { m with before := Text.trimLeft m.before }
  | none => change parent fun m => { m with after := Text.trimLeft m.after, newlines := 0 }

/-- Lets the flags of a member and of those below it take effect. -/
def trim : Nat → Nat → Edit Unit
  | 0, _ => throw .stalled
  | level + 1, i => do
    let m ← member i
    let content := m.body.map (·.2)
    if content.any Content.trimsInner then trimInner i
    if content.any Content.trimsOuter then trimOuter i
    if content.all Content.trimsChildren then m.children.forM (trim level)

def html : Nat → Nat → Edit Text
  | 0, _ => throw .stalled
  | level + 1, i => do
    let m ← member i
    let below ← m.children.mapM (html level)
    return m.before ++ below.flatten ++ m.after

def render (p : Profile) (i : Nat) : Edit Text := do
  let level ← levels
  (← member i).children.forM (write p level)
  trim level i
  html level i

def outlineRows : Nat → Nat → Edit (List Text)
  | 0, _ => throw .stalled
  | level + 1, i => do
    let m ← member i
    let below ← m.children.mapM (outlineRows level)
    return m.outlineRow :: below.flatten

def outline (i : Nat) : Edit Text := do
  return Text.unlines (← outlineRows (← levels) i)

end Graph

end Haml
