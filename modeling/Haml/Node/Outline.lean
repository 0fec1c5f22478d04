import Haml.Node.Forest

/-! Outlines: the nodes of a template one on a line, indented as in the template. -/
namespace Haml

namespace Content

def kind : Content → Text
  | plain _ => "PlaintextNode".toList
  | element _ => "ElementNode".toList
  | comment _ => "CommentNode".toList
  | conditional _ => "ConditionalCommentNode".toList
  | doctype _ => "DoctypeNode".toList
  | silent _ => "HamlCommentNode".toList
  | expression _ => "VariableNode".toList
  | tag _ => "TagNode".toList
  | filter _ _ => "FilterNode".toList

/-- The line of a node that is its line and nothing else. -/
def line? : Content → Option Text
  | plain l | comment l | conditional l | doctype l | silent l | expression l | tag l => some l
  | element _ | filter _ _ => none

/-- A node on one line, unless its content has more; `newlines` is the number of blank lines after
it. -/
def describe (depth : Nat) (newlines : Int) (c : Content) : Text :=
  let place := "(indent=".toList ++ Text.ofNat depth ++ ", newlines=".toList ++
    (toString newlines).toList
  match c with
  | element _ => c.kind
  | filter name body => c.kind ++ place ++ ", filter=".toList ++ name ++ "): ".toList ++ body
  | c => c.kind ++ place ++ "): ".toList ++ c.line?.getD []

def outlineRow (depth : Nat) (newlines : Int) (c : Content) : Text :=
  List.replicate (depth + 2) ' ' ++ c.describe depth newlines

end Content

def Node.outlineRow (n : Node) : Text := n.content.outlineRow n.depth n.newlines

def rootRow : Text := " Node".toList

def Forest.outline (f : Forest Node) : Text :=
  Text.unlines (rootRow :: f.toList.map Node.outlineRow)

end Haml
