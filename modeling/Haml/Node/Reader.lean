import Haml.Element.Reader
import Haml.InlineVariable
import Haml.Node.Basic
import Haml.Profile

/-!
Nodes as they are written in a template. The first characters of a line decide what kind of node it
is; elements and filters may go on over several lines.
-/
namespace Haml.Node

variable (p : Profile) (block : Text → Except Failure Text)

/-- The kind of a node that stands on a single line. Closing tags are refused, because they are
written by the compiler. -/
def ofLine (l : Text) : Except Failure Content :=
  let shown := Text.trimRight l
  if (InlineVariable.start? p.inlineEquals l).isSome then .ok (.plain shown)
  else match l with
    | '\\' :: _ => .ok (.plain shown)
    | '!' :: '!' :: '!' :: _ => .ok (.doctype shown)
    | '/' :: '[' :: _ => .ok (.conditional shown)
    | '/' :: _ => .ok (.comment shown)
    | '-' :: '#' :: _ => .ok (.silent shown)
    | '=' :: _ => .ok (.expression shown)
    | '-' :: _ =>
      if p.tags.isClosing (tagName shown) then .error (.rejected (.closingTag (tagName shown)) none)
      else .ok (.tag shown)
    | _ => .ok (.plain shown)

/-- The lines ahead that are blank or indented deeper than `depth`. -/
def deeperLines (depth : Nat) : Text → Reader (List Text)
  | [] => throw .stalled
  | _ :: steps => do
    if ← Reader.atEnd then return []
    match ← Reader.peekMargin with
    | some m =>
      if m ≤ depth then return []
      let l ← Reader.line
      return Attribute.blankToEmpty l :: (← deeperLines depth steps)
    | none =>
      let l ← Reader.line
      return Attribute.blankToEmpty l :: (← deeperLines depth steps)

def filterNode (indent : Text) : Reader Node := do
  if (← Reader.peek) ≠ ':' then throw .misplaced
  Reader.skip
  let name ← Reader.line?
  let body ← deeperLines indent.length (← Reader.allowance)
  match name with
  | none => throw .bareMark
  | some name =>
    return { indent := indent, content := .filter (Text.trimRight name) (Text.unlines body) }

/-- Whether an element is ahead, and not an inline variable or the end of a template tag. -/
def startsElement (c : Cursor) : Bool :=
  c.ahead.head?.any (fun x => x == '%' || x == '#' || x == '.') &&
    !(c.piece 2 == ['#', '{'] || c.piece 2 == ['%', '}'])

def node (indent : Text) : Reader Node := do
  if (← Reader.peek) = ':' then
    filterNode indent
  else if startsElement (← get) then
    return { indent := indent, content := .element (← Element.element p.settings block) }
  else
    match ofLine p (← Reader.line) with
    | .ok content => return { indent := indent, content := content }
    | .error e => throw e

/-- An indentation made of its first character only. -/
def uniform (indent : Text) : Text :=
  match indent with
  | [] => []
  | c :: _ => List.replicate indent.length c

/-- Passes over blank lines: their number, and the indentation of the line that follows them. -/
def blankLines : Text → Nat → Reader (Nat × Text)
  | [], _ => throw .stalled
  | _ :: steps, n => do
    let indent ← Reader.indentation
    if ← Reader.accept '\n' then
      blankLines steps (n + 1)
    else
      return (n, uniform indent)

/-- The number of blank lines ahead and the node after them, if there is one. -/
def next : Reader (Nat × Option Node) := do
  let (blanks, indent) ← blankLines (← Reader.allowance) 0
  if ← Reader.atEnd then
    return (blanks, none)
  else
    return (blanks, some (← node p block indent))

def addNewlines (n : Nat) : List Node → List Node
  | [] => []
  | m :: ms => { m with newlines := m.newlines + n } :: ms

/-- All nodes of the text ahead; `read` are the ones before, last first. -/
def all : Text → List Node → Reader (List Node)
  | [], _ => throw .stalled
  | _ :: steps, read => do
    let (blanks, found) ← next p block
    let read := addNewlines blanks read
    match found with
    | none => return read.reverse
    | some n => all steps (n :: read)

end Haml.Node
