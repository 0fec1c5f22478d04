import Haml.Attribute.Basic
import Haml.Escape.Quotes
import Haml.Options
import Haml.Text.Blank

/-!
Elements. The ids and classes of an element come both from its shortcuts and from its dictionaries;
building an element merges them.
-/
namespace Haml

theorem Text.trimmed_none : ∀ t ∈ (none : Option Text), Text.trim t = t := by
  intro _ h
  cases h

structure Element where
  tag : Text
  id : Option Text
  classes : List Scalar
  attributes : Attributes
  /-- Whether white space around the element is removed. -/
  trimsOuter : Bool := false
  /-- Whether white space inside the element is removed. -/
  trimsInner : Bool := false
  /-- Whether the element has no closing tag. -/
  selfClosing : Bool := false
  /-- Whether the inline content is an expression. -/
  isVariable : Bool := false
  inline : Option Text := none
  /-- The inline content is what is left of a line after trimming. -/
  trimmed : ∀ t ∈ inline, Text.trim t = t := by exact Text.trimmed_none
  deriving DecidableEq, Repr

namespace Element

def voidTags : List Text :=
  ["meta", "img", "link", "br", "hr", "input", "source", "track", "area", "base", "col", "command",
   "embed", "keygen", "param", "wbr"].map (·.toList)

/-- The texts of values that all have to be texts. -/
def texts (vs : List Scalar) : Except Failure (List Text) :=
  vs.mapM fun v => match v.text? with
    | some t => .ok t
    | none => .error .notText

def dictionaryIds (attributes : Attributes) : List Scalar :=
  match attributes.get? ['i', 'd'] with
  | some (.many ids) => ids
  | some (.one (.text t)) => [.text t]
  | _ => []

/-- The classes that a dictionary gives, which need not be texts. -/
def dictionaryClasses (attributes : Attributes) : List Scalar :=
  match attributes.get? "class".toList with
  | some (.many classes) => classes
  | some (.one c) => [c]
  | none => []

/-- All ids of an element as one, joined by underscores. -/
def mergeIds (ids : List Scalar) : Except Failure (Option Text) := do
  if ids.isEmpty then return none
  return some (['_'].intercalate (← texts ids))

/-- The element with a given tag, shortcut id, shortcut classes and dictionary. -/
def build (tag id : Option Text) (classes : List Scalar) (attributes : Attributes) :
    Except Failure Element := do
  let shortcut := match id with
    | some i => if i.isEmpty then [] else [Scalar.text i]
    | none => []
  let id ← mergeIds (shortcut ++ dictionaryIds attributes)
  return {
    tag := match tag with
      | some t => if t.isEmpty then "div".toList else t
      | none => "div".toList
    id := id
    classes := dictionaryClasses attributes ++ classes
    attributes := attributes }

def wrap (s : Settings) (t : Text) : Text := s.wrapper ++ t ++ s.wrapper

/-- A text value with its wrappers escaped. -/
def escapeText (s : Settings) (t : Text) : Text :=
  if s.escapesWrapper then Escape.quotes s.wrapper t else t

/-- The items of a list value one after another; an item that equals the wrapper is escaped. -/
def escapeItems (s : Settings) (items : List Scalar) : Except Failure Text := do
  return ((← texts items).map fun t =>
    if s.escapesWrapper ∧ t = s.wrapper then '\\' :: t else t).flatten

/-- An entry of the dictionary as it is written in the opening tag, if it is. -/
def renderEntry (s : Settings) (name : Text) (value : Value) : Except Failure (Option Text) :=
  if name = ['i', 'd'] ∨ name = "class".toList then .ok none
  else match value with
    | .one .nothing | .one (.flag false) => .ok none
    | .one (.flag true) =>
      .ok (some (if s.format.xhtml then name ++ '=' :: wrap s name else name))
    | .one (.text t) => .ok (some (name ++ '=' :: wrap s (escapeText s t)))
    | .many items => do return some (name ++ '=' :: wrap s (← escapeItems s items))

def renderAttributes (e : Element) (s : Settings) : Except Failure Text := do
  let entries ← e.attributes.mapM fun a => renderEntry s a.1 a.2
  let classes ←
    if e.classes.isEmpty then pure []
    else do pure ["class=".toList ++ wrap s ([' '].intercalate (← texts e.classes))]
  let ids := match e.id with
    | some i => if i.isEmpty then [] else ["id=".toList ++ wrap s i]
    | none => []
  return [' '].intercalate (entries.filterMap (fun entry => entry) ++ classes ++ ids)

end Element

end Haml
