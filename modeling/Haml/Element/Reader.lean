import Haml.Attribute.Reader
import Haml.Element.Basic

/-!
Elements as they are written in a template: a tag, shortcuts for ids and classes, dictionaries, the
flags `>`, `<`, `/` and `=`, and inline content up to the end of the line.
-/
namespace Haml.Element

open Attribute (isDash)

variable (s : Settings) (block : Text → Except Failure Text)

def tagName : Reader Text := do
  let name ← Reader.word isDash
  if ← Reader.accept ':' then
    return name ++ ':' :: (← Reader.word isDash)
  else
    return name

/-- The ids and classes written as `#name` and `.name`: the last id and all the classes. -/
def shortcuts : Text → Option Text → List Scalar → Reader (Option Text × List Scalar)
  | [], _, _ => throw .stalled
  | _ :: steps, id, classes => do
    if ← Reader.accept '#' then
      let name ← Reader.word isDash
      shortcuts steps (some name) classes
    else if ← Reader.accept '.' then
      let name ← Reader.word isDash
      shortcuts steps id (classes ++ [.text name])
    else
      return (id, classes)

/-- The dictionaries of an element as one: a later value replaces an earlier one. -/
def dictionaries : Text → Attributes → Reader Attributes
  | [], _ => throw .stalled
  | _ :: steps, d => do
    match ← Reader.peek? with
    | some '{' | some '(' => dictionaries steps (d.update (← Attribute.dictionary s block))
    | _ => return d

/-- Whether the point ahead stands for a bare `div` and not for a class. -/
def isBarePoint : Reader Bool := fun c =>
  match c.ahead with
  | [] | [_] => .error .bareMark c
  | _ :: d :: _ => .ok (!(Text.isWord d || isDash d)) c

/-- The start of an element: its tag, and whether shortcuts may follow. -/
def opening : Reader (Option Text × Bool) := do
  let c ← Reader.peek
  if c = '%' then
    Reader.skip
    return (some (← tagName), true)
  else if c = '.' then
    if ← isBarePoint then
      Reader.skip
      return (none, false)
    else
      return (none, true)
  else if c = '#' then
    return (none, true)
  else
    throw .misplaced

def element : Reader Element := do
  let (tag, hasShortcuts) ← opening
  let (id, classes) ←
    if hasShortcuts then shortcuts (← Reader.allowance) none [] else pure (none, [])
  let attributes ← dictionaries s block (← Reader.allowance) []
  let trimsOuter ← Reader.accept '>'
  let trimsInner ← Reader.accept '<'
  let slash ← Reader.accept '/'
  let isVariable ← Reader.accept '='
  let inline ← Reader.line?
  match build tag id classes attributes with
  | .error e => throw e
  | .ok e =>
    return { e with
      trimsOuter := trimsOuter
      trimsInner := trimsInner
      selfClosing := slash || tag.any voidTags.contains
      isVariable := isVariable
      inline := inline.map Text.trim
      trimmed := by simp [Text.trim_trim] }

end Haml.Element
