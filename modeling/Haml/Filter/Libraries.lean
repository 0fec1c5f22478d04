import Haml.Escape.Html
import Haml.Filter.Program
import Haml.Text.Blank

/-!
What filters leave to libraries: Markdown, syntax highlighting and running programs. The libraries
are parameters of the compiler. The ones that are here by default know plain input only: paragraphs
of words, text without syntax and programs that print.
-/
namespace Haml

namespace Filter

/-- Neighbouring lines that are not blank, as groups. -/
def paragraphs : List Text → List (List Text)
  | [] => []
  | l :: ls =>
    if l.all Text.isBlank then paragraphs ls
    else match ls, paragraphs ls with
      | next :: _, p :: ps => if next.all Text.isBlank then [l] :: p :: ps else (l :: p) :: ps
      | _, ps => [l] :: ps

def renderParagraphs (t : Text) : Text :=
  Text.unlines ((paragraphs t.lines).map fun p => "<p>".toList ++ Text.unlines p ++ "</p>".toList)

def trimBreaks (t : Text) : Text :=
  (Text.dropChar '\n' (Text.dropChar '\n' t).reverse).reverse

def highlightName (l : Text) : Text :=
  if l.isEmpty then []
  else "<span class=\"n\">".toList ++ l.flatMap Escape.entity ++ "</span>".toList

/-- Text without syntax, or names of a program if `asCode` holds. -/
def highlightText (asCode : Bool) (t : Text) : Text :=
  let body := trimBreaks t
  "<div class=\"highlight\"><pre><span></span>".toList ++
    (if asCode then Text.unlines (body.lines.map highlightName)
      else body.flatMap Escape.entity) ++
    "\n</pre></div>\n".toList

end Filter

/-- Writes text of some language with its syntax highlighted. -/
abbrev Lexer := Text → Text

structure Libraries where
  markdown : Text → Text := Filter.renderParagraphs
  /-- The language that a text seems to be written in. -/
  guess : Text → Option Lexer := fun _ => some (Filter.highlightText false)
  /-- The language of texts that do not seem to be written in any. -/
  fallback : Lexer := Filter.highlightText true
  run : Text → Except Filter.ProgramError Text := Filter.runLines

end Haml
