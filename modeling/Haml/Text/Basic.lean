/-!
Text as a list of characters, and the operations on it that do not look at character classes: lines,
replacement of single characters, and what follows a leading piece.
-/
namespace Haml

/-- Text is a list of code points, so positions and lengths count code points. A surrogate is not a
character, so there is no text with one that stands alone. -/
abbrev Text := List Char

namespace Text

/-- The pieces of a text between the characters that `cut` picks; there is always at least one. -/
def splitWhen (cut : Char → Bool) : Text → List Text
  | [] => [[]]
  | c :: rest =>
    if cut c then [] :: splitWhen cut rest
    else match splitWhen cut rest with
      | [] => [[c]]
      | w :: ws => (c :: w) :: ws

def lines (t : Text) : List Text := splitWhen (· == '\n') t

def unlines (ls : List Text) : Text := ['\n'].intercalate ls

def replaceChar (c : Char) (new : Text) (t : Text) : Text :=
  t.flatMap fun d => if d = c then new else [d]

/-- Every line but the first moved to the right by `margin`. -/
def indentBreaks (margin : Text) (t : Text) : Text := replaceChar '\n' ('\n' :: margin) t

/-- What follows `start`, if the text begins with it. -/
def after? : (start : Text) → Text → Option Text
  | [], t => some t
  | _ :: _, [] => none
  | s :: start, c :: t => if s = c then after? start t else none

def startsWith (start t : Text) : Bool := (after? start t).isSome

def endsWith (tail t : Text) : Bool := startsWith tail.reverse t.reverse

/-- The text after its leading run of `c`. -/
def dropChar (c : Char) (t : Text) : Text := t.dropWhile (· == c)

/-- A text with all line ends written as line feeds. -/
def universalBreaks : Text → Text
  | [] => []
  | '\r' :: '\n' :: rest => '\n' :: universalBreaks rest
  | '\r' :: rest => '\n' :: universalBreaks rest
  | c :: rest => c :: universalBreaks rest

def ofNat (n : Nat) : Text := (toString n).toList

end Text

end Haml
