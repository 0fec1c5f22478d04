import Haml.Node.Markup
import Haml.Node.Outline
import Haml.Node.Reader

/-!
Compilation of a template: its nodes are read, put into a forest and written as markup. Block values
are compiled in the same way; each is shorter than the text it stands in, so a depth of one more
than the length of the text is never used up.
-/
namespace Haml

/-- The nodes of a template, where `block` compiles block values. -/
def readNodes (p : Profile) (block : Text → Except Failure Text) (t : Text) :
    Except Failure (List Node) :=
  match Node.all p block (' ' :: t) [] (Cursor.ofText t) with
  | .ok nodes _ => .ok nodes
  | .error e _ => .error e

/-- The markup or the outline of a forest, as the settings want it. -/
def finish (p : Profile) (f : Forest Node) : Except Failure Text :=
  if p.settings.outline then .ok f.outline else f.render p

/-- Compiles a template with block values nested at most `depth - 1` deep. -/
def compileAt (p : Profile) : Nat → Text → Except Failure Text
  | 0, _ => .error .stalled
  | depth + 1, t => do
    let nodes ← readNodes p (compileAt p depth) t
    finish p (Forest.ofNodes p.tags nodes)

def compile (p : Profile) (t : Text) : Except Failure Text := compileAt p (t.length + 1) t

def parse (p : Profile) (t : Text) : Except Failure (Forest Node) := do
  let nodes ← readNodes p (compile p) t
  return Forest.ofNodes p.tags nodes

end Haml
