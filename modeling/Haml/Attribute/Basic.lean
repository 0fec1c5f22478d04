import Haml.Dictionary
import Haml.Text.LowerCase

/-! Attribute values and attribute dictionaries. -/
namespace Haml

/-- A single attribute value. Numbers and variables are kept as the text they are written as. -/
inductive Scalar where
  | nothing
  | flag (b : Bool)
  | text (t : Text)
  deriving DecidableEq, Repr

inductive Value where
  | one (s : Scalar)
  | many (items : List Scalar)
  deriving DecidableEq, Repr

abbrev Attributes := Dictionary Value

namespace Scalar

/-- What a bare word stands for: a keyword, in any letter case, or a variable. -/
def ofWord (w : Text) : Scalar :=
  if w.lower = "none".toList then nothing
  else if w.lower = "true".toList then flag true
  else if w.lower = "false".toList then flag false
  else text ("\x7b\x7b ".toList ++ w ++ " \x7d\x7d".toList)

def text? : Scalar → Option Text
  | text t => some t
  | _ => none

end Scalar

end Haml
