import Haml.Failure
import Haml.Text.Integer

/-!
Programs inside a page, which are replaced by what they print. Running them is left to an
interpreter; `runLines` is one for programs whose lines print a text or a number, or raise an error.
-/
namespace Haml.Filter

/-- Why a program has no output. -/
inductive ProgramError where
  | malformed
  | indented
  | raised
  deriving DecidableEq, Repr

def ProgramError.failure : ProgramError → Failure
  | malformed => .badProgram
  | indented => .badIndent
  | raised => .rejected .programFailed none

inductive Statement where
  | print (t : Text)
  | raise
  deriving DecidableEq, Repr

/-- What stands between `start` and `finish`, if the text has both at its ends. -/
def between? (start finish t : Text) : Option Text := do
  let rest ← Text.after? start t
  let middle ← Text.after? finish.reverse rest.reverse
  return middle.reverse

/-- The value of a whole number as it is printed. Zero alone may start with a zero. -/
def numeral? (t : Text) : Option Text :=
  if t.isEmpty || !t.all Char.isDigit then none
  else if t.all (· == '0') then some ['0']
  else if t.head? = some '0' || Text.maxDigits < t.length then none
  else some t

def statement? (l : Text) : Option Statement :=
  match between? "print(\"".toList "\")".toList l with
  | some t => some (.print t)
  | none =>
    match between? "print(".toList ")".toList l with
    | some t => (numeral? t).map .print
    | none => if Text.startsWith "raise ".toList l then some .raise else none

def isProgramBlank (c : Char) : Bool := Text.isIndent c || c == '\x0c'

/-- The statement on a line. The line must not be indented; a form feed starts it anew. -/
def lineStatement (l : Text) : Except ProgramError Statement :=
  let body := ((l.dropWhile isProgramBlank).reverse.dropWhile isProgramBlank).reverse
  if (l.takeWhile isProgramBlank).getLast?.any Text.isIndent then .error .indented
  else match statement? body with
    | some s => .ok s
    | none => .error .malformed

/-- The statements of a program. Blank lines do not count, and a NUL is not allowed anywhere. -/
def statements (t : Text) : Except ProgramError (List Statement) :=
  if t.any (·.toNat == 0) then .error .malformed
  else (t.universalBreaks.lines.filter fun l => !l.all isProgramBlank).mapM lineStatement

def execute : List Statement → Except ProgramError Text
  | [] => .ok []
  | .print t :: rest => do return t ++ '\n' :: (← execute rest)
  | .raise :: _ => .error .raised

/-- The output of a program. It is read as a whole before any of it runs. -/
def runLines (t : Text) : Except ProgramError Text := statements t >>= execute

end Haml.Filter
