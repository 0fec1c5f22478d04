import Haml.Text.Basic

/-!
Escaping of the characters that mean something in markup. Tags and expressions of the template
language are copied as they are.
-/
namespace Haml.Escape

/-- Where an escaping run stands: in markup, inside a template tag or inside an expression. -/
inductive Region where
  | markup
  | tag
  | expression
  deriving DecidableEq, Repr

def entity : Char → Text
  | '&' => "&amp;".toList
  | '<' => "&lt;".toList
  | '>' => "&gt;".toList
  | '"' => "&quot;".toList
  | '\'' => "&#39;".toList
  | c => [c]

/-- Escapes the rest of a text from a given region on. Both openers are seen in every region, a
closer only in its own. -/
def htmlFrom : Region → Text → Text
  | _, [] => []
  | r, [c] => if r = .markup then entity c else [c]
  | r, c :: d :: rest =>
    if c = '{' ∧ d = '%' then c :: d :: htmlFrom .tag rest
    else if c = '{' ∧ d = '{' then c :: d :: htmlFrom .expression rest
    else if r = .tag ∧ c = '%' ∧ d = '}' then c :: d :: htmlFrom .markup rest
    else if r = .expression ∧ c = '}' ∧ d = '}' then c :: d :: htmlFrom .markup rest
    else (if r = .markup then entity c else [c]) ++ htmlFrom r (d :: rest)

def html (t : Text) : Text := htmlFrom .markup t

end Haml.Escape
