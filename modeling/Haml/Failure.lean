import Haml.Text.Basic

/-!
What can go wrong while a template is compiled. A `Fault` is a mistake in the template that the
compiler explains to its author; a `Failure` is a fault, or one of the conditions that end a run
without an explanation.
-/
namespace Haml

inductive Fault where
  | endOfInput
  | unexpected (c : Char)
  | expected (symbols : List Text)
  | unterminatedString (quote : Char)
  | unterminatedDictionary
  | emptyName
  | duplicate (key : Text)
  | closingTag (name : Text)
  | unknownFilter (name : Text)
  | noMarkdown
  | noHighlighter
  | programFailed
  deriving DecidableEq, Repr

namespace Fault

def quoted (t : Text) : Text := '"' :: t ++ ['"']

def message : Fault → Text
  | endOfInput => "Unexpected end of input.".toList
  | unexpected c => "Unexpected ".toList ++ quoted [c] ++ ['.']
  | expected symbols =>
    "Expected ".toList ++ " or ".toList.intercalate (symbols.map quoted) ++ ['.']
  | unterminatedString q => "Unterminated string (expected ".toList ++ [q] ++ ").".toList
  | unterminatedDictionary => "Unterminated attribute dictionary".toList
  | emptyName => "Attribute name can't be an empty string.".toList
  | duplicate key => "Duplicate attribute: ".toList ++ quoted key ++ ['.']
  | closingTag name => "Unexpected closing tag for self-closing tag ".toList ++ name
  | unknownFilter name => "No such filter: ".toList ++ name
  | noMarkdown => "Markdown is not available".toList
  | noHighlighter => "Pygments is not available".toList
  | programFailed => "Error whilst executing python filter node".toList

end Fault

inductive Failure where
  /-- A fault of the template; `near` is the text around the place where it was found. -/
  | rejected (fault : Fault) (near : Option Text)
  /-- A character was needed where the text has ended. -/
  | pastEnd
  /-- A reader was started at a character that does not start what it reads. -/
  | misplaced
  /-- A mark that needs something after it is the last character of the text. -/
  | bareMark
  /-- A value that is not text stands where texts are joined. -/
  | notText
  /-- A block value starts with a blank line, so it has no margin to compare with. -/
  | noMargin
  /-- A conditional comment has no closing bracket. -/
  | noBracket
  /-- A quoted literal cannot be evaluated. -/
  | badLiteral
  /-- There is nothing to evaluate where a quoted literal was found. -/
  | noLiteral
  /-- The body of a program filter is not a program. -/
  | badProgram
  /-- A line of a program is indented. -/
  | badIndent
  /-- A node without a parent was asked for its siblings. -/
  | orphan
  /-- A root was put below another node, where it cannot be rendered. -/
  | rootBelow
  /-- An option that follows from others was set. -/
  | readOnlyOption
  /-- Additional tags were not given as a table or as pairs. -/
  | notTable
  /-- An additional tag was given by something other than two items. -/
  | notPair
  /-- There is no tag table of the given name. -/
  | unknownDialect
  /-- A tag table was asked for by a value that cannot be a name. -/
  | unnamedDialect
  /-- There is nothing under a number, because none so high was given out. -/
  | noSuchNumber
  /-- There is nothing under a number, because it could not be made. -/
  | notMade
  /-- A reading loop did not come to an end within the length of its text. -/
  | stalled
  deriving DecidableEq, Repr

namespace Failure

def message : Failure → Text
  | rejected fault none => fault.message
  | rejected fault (some near) =>
    fault.message ++ " @ \"".toList ++ near ++ "\" <-".toList
  | pastEnd => "The template ends too early".toList
  | misplaced => "A reader was started at the wrong character".toList
  | bareMark => "A mark at the end of the template has nothing after it".toList
  | notText => "A value that is not text cannot be joined with others".toList
  | noMargin => "A block value starts with a blank line".toList
  | noBracket => "A conditional comment has no closing bracket".toList
  | badLiteral => "A quoted string is not a valid literal".toList
  | noLiteral => "There is no literal to evaluate".toList
  | badProgram => "The body of a program filter is not a program".toList
  | badIndent => "A line of a program filter is indented".toList
  | orphan => "A node without a parent has no siblings".toList
  | rootBelow => "A root cannot be rendered below another node".toList
  | readOnlyOption => "The option cannot be set".toList
  | notTable => "Additional tags must be given as a table".toList
  | notPair => "An additional tag must be given as a pair".toList
  | unknownDialect => "There is no such tag table".toList
  | unnamedDialect => "A tag table cannot have such a name".toList
  | noSuchNumber => "There is no such number".toList
  | notMade => "There is nothing of that number".toList
  | stalled => "A reader made no progress".toList

end Failure

end Haml
