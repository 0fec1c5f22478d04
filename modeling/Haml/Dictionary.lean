import Haml.Text.Basic

/-! Dictionaries that keep their keys in the order in which they first came. -/
namespace Haml

/-- Keys are texts where nothing else is said. -/
abbrev Dictionary (β : Type) (κ : Type := Text) := List (κ × β)

namespace Dictionary

variable {β κ : Type} [DecidableEq κ]

def get? (d : Dictionary β κ) (key : κ) : Option β :=
  (d.find? (·.1 == key)).map (·.2)

def contains (d : Dictionary β κ) (key : κ) : Bool := d.any (·.1 == key)

/-- A new key goes to the end; the value of a key that is there is replaced where it stands. -/
def insert (key : κ) (value : β) : Dictionary β κ → Dictionary β κ
  | [] => [(key, value)]
  | (k, v) :: d => if k = key then (k, value) :: d else (k, v) :: insert key value d

def update (d new : Dictionary β κ) : Dictionary β κ :=
  new.foldl (fun d e => insert e.1 e.2 d) d

def keys (d : Dictionary β κ) : List κ := d.map (·.1)

end Dictionary

end Haml
