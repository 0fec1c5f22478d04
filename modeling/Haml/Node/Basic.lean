import Haml.Element.Basic
import Haml.Text.Blank

/-!
Nodes: the parts of a template that stand on lines of their own. A node knows its indentation and
the number of blank lines after it, but not its place in the tree.
-/
namespace Haml

/-- What a node holds. All but elements and filters keep their line without trailing blanks. -/
inductive Content where
  | plain (line : Text)
  | element (e : Element)
  | comment (line : Text)
  | conditional (line : Text)
  | doctype (line : Text)
  | silent (line : Text)
  | expression (line : Text)
  | tag (line : Text)
  | filter (name body : Text)
  deriving DecidableEq, Repr

namespace Content

def trimsOuter : Content → Bool
  | element e => e.trimsOuter
  | _ => false

def trimsInner : Content → Bool
  | element e => e.trimsInner
  | _ => false

def showsChildren : Content → Bool
  | plain _ | element _ | comment _ | conditional _ | tag _ => true
  | doctype _ | silent _ | expression _ | filter _ _ => false

/-- Whether the flags of the nodes below a node have an effect. -/
def trimsChildren : Content → Bool
  | silent _ | expression _ | filter _ _ => false
  | _ => true

end Content

structure Node where
  indent : Text
  content : Content
  /-- The number of blank lines after the node. -/
  newlines : Nat := 0
  deriving DecidableEq, Repr

def tagStatement (line : Text) : Text := Text.trim (Text.dropChar '-' line)

/-- The name of a tag is its statement up to the first space. -/
def tagName (line : Text) : Text := (tagStatement line).takeWhile (· != ' ')

namespace Node

def depth (n : Node) : Nat := n.indent.length

/-- The line end after a node and a break for each blank line. -/
def breaks (n : Node) : Text := List.replicate (n.newlines + 1) '\n'

end Node

end Haml
