import Haml.Text.Basic

/-! Escaping of the quote that wraps an attribute value, except inside template tags. -/
namespace Haml.Escape

/-- Whether a run is inside a template tag once it has seen `c` with `rest` after it. -/
def insideTag (inside : Bool) (c : Char) (rest : Text) : Bool :=
  if c = '{' ∧ rest.head? = some '%' then true
  else if c = '%' ∧ rest.head? = some '}' then false
  else inside

def quotesFrom (q : Char) (inside : Bool) : Text → Text
  | [] => []
  | c :: rest =>
    let inside' := insideTag inside c rest
    (if c = q ∧ inside' = false then ['\\', c] else [c]) ++ quotesFrom q inside' rest

/-- A backslash before each wrapper that stands outside template tags. A wrapper of several
characters, or of none, is no quote and needs no escape. -/
def quotes (wrapper : Text) (t : Text) : Text :=
  match wrapper with
  | [q] => quotesFrom q false t
  | _ => t

end Haml.Escape
