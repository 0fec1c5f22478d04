import Haml.Failure

/-!
A position in a text. The text on the left of the position is kept nearest character first, so that
a step in either direction moves one character from one side to the other. `move` can lead out of
the text. After its end there is nothing to read. A position before its start counts from its end,
so the last characters are read there, and then the text from its start on.
-/
namespace Haml

structure Cursor where
  /-- The text before the position, nearest character first. -/
  passed : Text
  /-- The text after the position. -/
  rest : Text
  /-- How far the position lies beyond the end of the text. -/
  overrun : Nat := 0
  /-- How far the position lies before the start of the text. -/
  underrun : Nat := 0
  deriving DecidableEq, Repr

namespace Cursor

def ofText (t : Text) : Cursor := { passed := [], rest := t }

/-- The whole text, which no movement changes. -/
def text (c : Cursor) : Text := c.passed.reverse ++ c.rest

def position (c : Cursor) : Int := ((c.passed.length + c.overrun : Nat) : Int) - c.underrun

@[simp] theorem text_ofText (t : Text) : (ofText t).text = t := rfl
@[simp] theorem position_ofText (t : Text) : (ofText t).position = 0 := rfl

/-- Where the characters that are counted from the end of the text start. -/
def fold (c : Cursor) : Nat := c.rest.length - c.underrun

/-- The characters that are read from the position on. -/
def ahead (c : Cursor) : Text :=
  if c.underrun = 0 then c.rest
  else if c.rest.length < c.underrun then []
  else c.rest.drop c.fold ++ c.rest

def atEnd (c : Cursor) : Bool := c.underrun = 0 && c.rest.isEmpty

/-- The piece of text that is cut out when `taken`, the first of the characters ahead, is passed
over. Nothing is cut out from before the start of the text to a place in front of that in the text.
-/
def span (c : Cursor) (taken : Text) : Text :=
  if taken.length < c.underrun ∨ c.underrun = 0 then taken
  else (c.rest.take (taken.length - c.underrun)).drop c.fold

/-- The position after `taken`, the first of the characters ahead, with `rest` after it. -/
def past (c : Cursor) (taken rest : Text) : Cursor :=
  if c.underrun = 0 then { c with passed := taken.reverseAux c.passed, rest := rest }
  else if taken.length < c.underrun then { c with underrun := c.underrun - taken.length }
  else
    let n := taken.length - c.underrun
    { passed := (c.rest.take n).reverse, rest := c.rest.drop n }

def next (c : Cursor) : Cursor :=
  match c.underrun, c.rest with
  | n + 1, _ => { c with underrun := n }
  | 0, [] => { c with overrun := c.overrun + 1 }
  | 0, x :: rest => { c with passed := x :: c.passed, rest := rest }

def back (c : Cursor) : Cursor :=
  match c.overrun, c.passed with
  | n + 1, _ => { c with overrun := n }
  | 0, [] => { c with underrun := c.underrun + 1 }
  | 0, x :: passed => { c with passed := passed, rest := x :: c.rest }

def forward : Nat → Cursor → Cursor
  | 0, c => c
  | n + 1, c => forward n c.next

def backward : Nat → Cursor → Cursor
  | 0, c => c
  | n + 1, c => backward n c.back

/-- Moves by a distance, to the left if it is negative. -/
def move (n : Int) (c : Cursor) : Cursor :=
  match n with
  | .ofNat n => c.forward n
  | .negSucc n => c.backward (n + 1)

/-- The piece of the next `n` characters of the text. -/
def piece (c : Cursor) (n : Nat) : Text :=
  if c.underrun = 0 then c.rest.take n
  else if n < c.underrun then (c.rest.take (c.rest.length + n - c.underrun)).drop c.fold
  else (c.rest.take (n - c.underrun)).drop c.fold

/-- What a report shows of the text: up to 31 characters before the position and the one after it.
-/
def context (c : Cursor) : Text :=
  match c.underrun with
  | 0 => (c.passed.take (31 - c.overrun)).reverse ++ c.rest.take 1
  | 1 => []
  | n + 2 => c.rest.take (c.rest.length - (n + 1))

/-- Both sides of the position on one line. -/
def describe (c : Cursor) : Text :=
  let (left, right) :=
    if c.underrun = 0 then (c.passed.reverse, c.rest) else (c.rest.take c.fold, c.rest.drop c.fold)
  Fault.quoted (oneLine left) ++ " >> ".toList ++ Fault.quoted (oneLine right)
where
  oneLine (t : Text) : Text := Text.replaceChar '\n' ['\\', 'n'] t

end Cursor

end Haml
