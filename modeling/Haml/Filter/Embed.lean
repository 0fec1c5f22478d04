import Haml.Options
import Haml.Text.Blank

/-!
Style sheets and scripts inside a page, wrapped in an element and, if wanted, in a CDATA section.
-/
namespace Haml.Filter

/-- An element that embeds text of another language. -/
structure Embedding where
  element : Text
  mime : Text
  /-- What hides the start of a CDATA section from the embedded language. -/
  cdataOpen : Text
  cdataClose : Text

namespace Embedding

def style (mime : String) : Embedding where
  element := "style".toList
  mime := mime.toList
  cdataOpen := "/*<![CDATA[*/".toList
  cdataClose := "/*]]>*/".toList

/-- A script whose lines are commented out by `remark`. -/
def script (mime remark : String) : Embedding where
  element := "script".toList
  mime := mime.toList
  cdataOpen := remark.toList ++ "<![CDATA[".toList
  cdataClose := remark.toList ++ "]]>".toList

def cdataLine (s : Settings) (mark : Text) : Text :=
  if s.cdata then "  ".toList ++ mark ++ ['\n'] else []

def indent (s : Settings) : Text := if s.cdata then "    ".toList else "  ".toList

def render (e : Embedding) (s : Settings) (t : Text) : Text :=
  '<' :: e.element ++ " type=".toList ++ s.wrapper ++ e.mime ++ s.wrapper ++ ">\n".toList ++
    cdataLine s e.cdataOpen ++
    indent s ++ Text.indentBreaks (indent s) (Text.trimRight t) ++ ['\n'] ++
    cdataLine s e.cdataClose ++
    "</".toList ++ e.element ++ ['>']

end Embedding

end Haml.Filter
