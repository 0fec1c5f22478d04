import Haml.Cursor
import Haml.Text.Blank
import Haml.Text.Quoted
import Haml.Text.Word

/-!
Readers: actions on a cursor that end with a value or a failure, and with a new position in both
cases. This module has the lexical ones: blanks, lines, words, numbers, symbols and quoted strings.
-/
namespace Haml

abbrev Reader (α : Type) := EStateM Failure Cursor α

namespace Reader

variable {α : Type}

/-- Ends with a fault, and with the text around the current position as its place. -/
def reject (fault : Fault) : Reader α := fun c =>
  .error (.rejected fault (some c.context)) c

def peek : Reader Char := fun c =>
  match c.ahead with
  | [] => .error .pastEnd c
  | x :: _ => .ok x c

def peek? : Reader (Option Char) := fun c =>
  match c.ahead with
  | [] => if c.atEnd then .ok none c else .error .pastEnd c
  | x :: _ => .ok (some x) c

def atEnd : Reader Bool := fun c => .ok c.atEnd c

def skip : Reader Unit := fun c => .ok () c.next

def unread : Reader Unit := fun c => .ok () c.back

/-- A text with one character more than are left. A loop that passes over a character in every turn
ends before it has used up one of these in each. -/
def allowance : Reader Text := fun c => .ok (' ' :: c.ahead) c

/-- The longest run of characters that satisfy `p`. -/
def takeWhile (p : Char → Bool) : Reader Text := fun c =>
  match c.ahead with
  | [] => if c.atEnd then .ok [] c else .error .pastEnd c
  | t => .ok (c.span (t.takeWhile p)) (c.past (t.takeWhile p) (t.dropWhile p))

def indentation : Reader Text := takeWhile Text.isIndent

def gap : Reader Text := takeWhile Text.isGap

/-- Passes over `c` if it is next, and says whether it was. -/
def accept (c : Char) : Reader Bool := do
  if (← peek?) = some c then
    skip
    return true
  else
    return false

def expectInput : Reader Unit := do
  if ← atEnd then reject .endOfInput

def unexpected : Reader α := do
  reject (.unexpected (← peek))

/-- How many blanks start the line ahead, or nothing if the line is blank. -/
def margin? : Text → Except Failure (Option Nat)
  | [] => .error .pastEnd
  | c :: rest =>
    if c = '\n' then .ok none
    else if Text.isBlank c then (margin? rest).map (·.map (· + 1))
    else .ok (some 0)

def peekMargin : Reader (Option Nat) := fun c =>
  match margin? c.ahead with
  | .ok m => .ok m c
  | .error e => .error e c

/-- The text up to the next line break, which is passed over. -/
def line : Reader Text := do
  let l ← takeWhile (· != '\n')
  let _ ← accept '\n'
  return l

def line? : Reader (Option Text) := do
  if ← atEnd then return none else return some (← line)

/-- The text up to the first `q` that does not follow a backslash, and what comes after that `q`;
`before` is the character in front of the text. -/
def closingQuote (q before : Char) : Text → Option (Text × Text)
  | [] => none
  | c :: rest =>
    if c = q ∧ before ≠ '\\' then some ([], rest)
    else (closingQuote q c rest).map fun r => (c :: r.1, r.2)

def isQuote (c : Char) : Bool := c == '"' || c == '\''

def quotedString : Reader Text := fun c =>
  match c.ahead with
  | [] => .error .pastEnd c
  | q :: rest =>
    if isQuote q then
      match closingQuote q q rest with
      | none => reject (.unterminatedString q) (c.past (q :: rest) [])
      | some (body, rest') =>
        let quoted := q :: body ++ [q]
        match c.span quoted with
        | [] => .error .noLiteral (c.past quoted rest')
        | q :: source =>
          match Text.literal? q source with
          | some value => .ok value (c.past quoted rest')
          | none => .error .badLiteral (c.past quoted rest')
    else .error .misplaced c

/-- A run of digits and points, which must not reach the end of the text. -/
def number : Reader Text := do
  let n ← takeWhile fun c => Text.isDigit c || c == '.'
  let _ ← peek
  return n

/-- The first of the given symbols that the text goes on with. -/
def symbol (symbols : List Text) : Reader Text := fun c =>
  match symbols.find? fun s => c.piece s.length == s with
  | some s => .ok s (c.forward s.length)
  | none => reject (.expected symbols) c

/-- A word: letters, numerals, underscores, and the characters that `extra` allows. -/
def word (extra : Char → Bool) : Reader Text := do
  expectInput
  let inWord := fun c => Text.isWord c || extra c
  let c ← peek
  if inWord c then takeWhile inWord else reject (.unexpected c)

end Reader

end Haml
