import Haml.Reader

/-!
Block values: the value of an attribute can be a block of markup on the lines below it, indented at
least as far as its first line. The block is compiled on its own and then brought onto one line.
-/
namespace Haml.Attribute

/-- A place in a line for `collapse`: at its start, in its leading white space, or after that. -/
inductive Place where
  | start
  | leading
  | inside
  deriving DecidableEq, Repr

/-- The leading white space of every line made a single space. Since line breaks are white space
too, blank lines go with it. -/
def collapseFrom : Place → Text → Text
  | _, [] => []
  | .start, c :: rest =>
    if Text.isWhite c then ' ' :: collapseFrom .leading rest else c :: collapseFrom .inside rest
  | .leading, c :: rest =>
    if Text.isWhite c then collapseFrom .leading rest else c :: collapseFrom .inside rest
  | .inside, c :: rest => c :: collapseFrom (if c = '\n' then .start else .inside) rest

def flatten (html : Text) : Text :=
  Text.trim ((collapseFrom .start html).filter (· != '\n'))

/-- A line of a block; lines of blanks are empty. -/
def blankToEmpty (l : Text) : Text := if l.all Text.isBlank then [] else l

/-- The lines ahead that are blank or indented by at least `margin`. A line that is not blank needs
a margin to be compared with. -/
def blockLines (margin : Option Nat) : Text → Reader (List Text)
  | [] => throw .stalled
  | _ :: steps => do
    if ← Reader.atEnd then return []
    match ← Reader.peekMargin, margin with
    | some _, none => throw .noMargin
    | some m, some least =>
      if m < least then return []
      let l ← Reader.line
      return blankToEmpty l :: (← blockLines margin steps)
    | none, _ =>
      let l ← Reader.line
      return blankToEmpty l :: (← blockLines margin steps)

/-- A block value. The line break at its end is left to be read again, where it separates this
attribute from the next. -/
def blockValue (block : Text → Except Failure Text) : Reader Text := do
  let margin ← Reader.peekMargin
  let ls ← blockLines margin (← Reader.allowance)
  Reader.unread
  match block (Text.unlines ls) with
  | .ok html => return flatten html
  | .error e => throw e

end Haml.Attribute
