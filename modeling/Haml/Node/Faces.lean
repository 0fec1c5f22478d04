import Haml.Doctype
import Haml.InlineVariable
import Haml.Node.Basic
import Haml.Profile
import Haml.Text.Margin

/-!
The faces of a node: the text that it puts before the nodes below it, and the text that it puts
after them.
-/
namespace Haml

/-- The two texts of a node; one that is missing stays what it was. -/
structure Faces where
  before : Option Text := none
  after : Option Text := none
  deriving DecidableEq, Repr

namespace Content

def expressionText (t : Text) : Text := "\x7b\x7b ".toList ++ t ++ " \x7d\x7d".toList

def tagText (t : Text) : Text := "\x7b% ".toList ++ t ++ " %\x7d".toList

/-- A line of plain text; a leading backslash has kept it from being read as something else. -/
def plainText (p : Profile) (line : Text) : Text :=
  match InlineVariable.replace p.inlineEquals line with
  | '\\' :: rest => rest
  | t => t

/-- The inline content of an element as it is written, if there is any. -/
def inlineText (p : Profile) (e : Element) : Option Text :=
  match e.inline with
  | none => none
  | some t =>
    if t.isEmpty then none
    else if e.isVariable then some (expressionText (Text.trim t))
    else some (InlineVariable.replace p.inlineEquals t)

/-- What ends the opening tag: the inline content, or the line end if nodes follow below. -/
def openingEnd (p : Profile) (breaks : Text) (e : Element) (hasChildren : Bool) : Text :=
  match (inlineText p e).map fun t => if e.trimsInner then Text.trim t else t with
  | some (c :: t) => '>' :: c :: t
  | _ =>
    if e.selfClosing then (if p.settings.format.isHtml then ['>'] else " />".toList)
    else if hasChildren then '>' :: breaks
    else ['>']

def openingTag (p : Profile) (indent breaks : Text) (e : Element) (hasChildren : Bool) :
    Except Failure Text := do
  let attributes ← e.renderAttributes p.settings
  let shown :=
    if attributes.isEmpty then [] else ' ' :: InlineVariable.replace p.inlineEquals attributes
  return indent ++ '<' :: e.tag ++ shown ++ openingEnd p breaks e hasChildren

def closingTag (indent breaks : Text) (e : Element) (hasChildren : Bool) : Text :=
  let close := "</".toList ++ e.tag ++ ['>']
  if (e.inline.getD []).isEmpty = false then close ++ breaks
  else if e.selfClosing then breaks
  else if hasChildren then indent ++ close ++ ['\n']
  else close ++ ['\n']

def condition? (line : Text) : Option (Text × Text) :=
  match (line.drop 1).dropWhile (· != ']') with
  | [] => none
  | _ :: rest => some ((line.drop 1).takeWhile (· != ']') ++ [']'], rest)

/-- The texts of a node with a given indentation and given breaks after it, and with or without
nodes below it. -/
def faces (p : Profile) (indent breaks : Text) (content : Content) (hasChildren : Bool) :
    Except Failure Faces :=
  match content with
  | .plain line =>
    let text := indent ++ plainText p line
    .ok <| if hasChildren then { before := some (text ++ breaks) }
      else { before := some text, after := some breaks }
  | .element e => do
    let opening ← openingTag p indent breaks e hasChildren
    return { before := some opening, after := some (closingTag indent breaks e hasChildren) }
  | .comment line =>
    let text := if hasChildren then breaks else Text.trim (Text.dropChar '/' line) ++ [' ']
    .ok { before := some ("<!-- ".toList ++ text), after := some "-->\n".toList }
  | .conditional line =>
    match condition? line with
    | none => .error .noBracket
    | some (condition, text) =>
      .ok { before := some ("<!--".toList ++ condition ++ ['>'] ++
              if hasChildren then ['\n'] else text)
            after := some "<![endif]-->\n".toList }
  | .doctype line =>
    .ok { before := some (Doctype.header p.settings line), after := some breaks }
  | .silent _ => .ok { after := some (breaks.drop 1) }
  | .expression line =>
    .ok { before := some (indent ++ expressionText (Text.trim (Text.dropChar '=' line)))
          after := some breaks }
  | .tag line =>
    let text := indent ++ tagText (tagStatement line)
    .ok <| match p.tags.closing? (tagName line) with
      | some closing =>
        { before := some (text ++ breaks), after := some (indent ++ tagText closing ++ breaks) }
      | none =>
        if hasChildren then { before := some (text ++ breaks) }
        else { before := some text, after := some breaks }
  | .filter name body => do
    let f ← p.filters.find name
    let text ← f.apply p.filters p.settings (Text.dedent body)
    return {
      before := some (indent ++ Text.indentBreaks indent text)
      after := some (if body.isEmpty then [] else breaks) }

end Content

def Node.faces (p : Profile) (n : Node) (hasChildren : Bool) : Except Failure Faces :=
  n.content.faces p n.indent n.breaks hasChildren

end Haml
