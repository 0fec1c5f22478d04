import Haml.Text.Blank

/-! Removing the margin that all lines of a text have in common. -/
namespace Haml.Text

def commonStart : Text → Text → Text
  | c :: s, d :: t => if c = d then c :: commonStart s t else []
  | _, _ => []

/-- The longest run of spaces and tabs that starts every line which holds something else. -/
def commonMargin (ls : List Text) : Text :=
  match (ls.filter fun l => !l.all isIndent).map (·.takeWhile isIndent) with
  | [] => []
  | m :: ms => ms.foldl commonStart m

/-- The lines of a text without their common margin. Lines of spaces and tabs become empty. -/
def dedent (t : Text) : Text :=
  let ls := t.lines.map fun l => if l.all isIndent then [] else l
  let margin := commonMargin ls
  unlines (ls.map fun l => (after? margin l).getD l)

end Haml.Text
