import Haml.Dictionary
import Haml.Failure
import Haml.Text.Shown

/-!
Options of a compiler. `Options` holds them as they were given, where any value can stand for any
option; `Settings` is what they mean.
-/
namespace Haml

inductive OptionValue where
  | nothing
  | flag (b : Bool)
  | number (n : Int)
  /-- The number `n` with its last `places` digits behind the point. -/
  | decimal (n : Int) (places : Nat)
  | text (t : Text)
  | list (items : List OptionValue)
  | table (rows : List (Text × OptionValue))
  deriving Inhabited, Repr

namespace OptionValue

/-- Whether a value counts as switched on: nothing, zero and whatever is empty do not. -/
def isOn : OptionValue → Bool
  | nothing => false
  | flag b => b
  | number n => n != 0
  | decimal n _ => n != 0
  | text t => !t.isEmpty
  | list items => !items.isEmpty
  | table rows => !rows.isEmpty

/-- A number with a point, which has a digit on both sides. -/
def decimalText (n : Int) (places : Nat) : Text :=
  let digits := Text.ofNat n.natAbs
  let padded := List.replicate (places + 1 - digits.length) '0' ++ digits
  let whole := padded.take (padded.length - places)
  let fraction := (Text.dropChar '0' (padded.drop (padded.length - places)).reverse).reverse
  (if n < 0 then ['-'] else []) ++ whole ++ '.' :: (if fraction.isEmpty then ['0'] else fraction)

mutual

/-- A value as it is shown inside another. -/
def shown : OptionValue → Text
  | nothing => "None".toList
  | flag true => "True".toList
  | flag false => "False".toList
  | number n => (toString n).toList
  | decimal n places => decimalText n places
  | text t => t.shown
  | list items => '[' :: ", ".toList.intercalate (shownItems items) ++ [']']
  | table rows => '{' :: ", ".toList.intercalate (shownRows rows) ++ ['}']

def shownItems : List OptionValue → List Text
  | [] => []
  | v :: vs => shown v :: shownItems vs

def shownRows : List (Text × OptionValue) → List Text
  | [] => []
  | (key, v) :: rows => (Text.shown key ++ ": ".toList ++ shown v) :: shownRows rows

end

def asText : OptionValue → Text
  | text t => t
  | v => shown v

def isText (v : OptionValue) (t : Text) : Bool :=
  match v with
  | text u => u == t
  | _ => false

/-- The value as a fraction over a power of ten, if it is a number. The flags are one and zero. -/
def fraction? : OptionValue → Option (Int × Nat)
  | flag b => some (if b then 1 else 0, 0)
  | number n => some (n, 0)
  | decimal n places => some (n, places)
  | _ => none

/-- Whether two values that are no lists and tables are equal. Numbers are compared by value. -/
def same (v w : OptionValue) : Bool :=
  match v, w with
  | nothing, nothing => true
  | text t, text u => t == u
  | v, w =>
    match fraction? v, fraction? w with
    | some (n, i), some (m, j) => n * Int.pow 10 j == m * Int.pow 10 i
    | _, _ => false

end OptionValue

/-- The options of a compiler as they were given, or their defaults. -/
structure Options where
  attrWrapper : OptionValue := .text ['\'']
  format : OptionValue := .text "html5".toList
  escapeAttrs : OptionValue := .flag false
  cdata : OptionValue := .flag false
  inlineEquals : OptionValue := .flag false
  tagConfig : OptionValue := .text "django".toList
  customTags : OptionValue := .table []
  debugTree : OptionValue := .flag false
  /-- The value of `format` that stands for HTML 4. -/
  html4 : OptionValue := .text "html4".toList
  /-- The value of `format` that stands for HTML 5. -/
  html5 : OptionValue := .text "html5".toList
  /-- The value of `format` that stands for XHTML. -/
  xhtml : OptionValue := .text "xhtml".toList
  deriving Repr

namespace Options

def isHtml4 (o : Options) : Bool := o.format.same o.html4
def isHtml5 (o : Options) : Bool := o.format.same o.html5
def isHtml (o : Options) : Bool := o.isHtml4 || o.isHtml5
def isXhtml (o : Options) : Bool := o.format.same o.xhtml

def readOnly : List Text := ["html4", "html5", "html", "xhtml", "_cdata"].map (·.toList)

/-- Sets an option by its name. Names that are not known are ignored. -/
def set (o : Options) (name : Text) (value : OptionValue) : Except Failure Options :=
  if readOnly.contains name then .error .readOnlyOption
  else .ok <|
    if name = "attr_wrapper".toList then { o with attrWrapper := value }
    else if name = "format".toList then { o with format := value }
    else if name = "escape_attrs".toList then { o with escapeAttrs := value }
    else if name = "cdata".toList then { o with cdata := value }
    else if name = "django_inline_style".toList then { o with inlineEquals := value }
    else if name = "tag_config".toList then { o with tagConfig := value }
    else if name = "custom_self_closing_tags".toList then { o with customTags := value }
    else if name = "debug_tree".toList then { o with debugTree := value }
    else if name = "HTML4".toList then { o with html4 := value }
    else if name = "HTML5".toList then { o with html5 := value }
    else if name = "XHTML".toList then { o with xhtml := value }
    else o

/-- XHTML always has its scripts in CDATA sections. -/
def withCdata (o : Options) : Options :=
  if o.isXhtml then { o with cdata := .flag true } else o

def ofList (given : List (Text × OptionValue)) : Except Failure Options :=
  (given.foldlM (fun (o : Options) e => o.set e.1 e.2) {}).map withCdata

end Options

/-- The kinds of markup that the output counts as. Options can make it count as several. -/
structure Format where
  html4 : Bool := false
  html5 : Bool := false
  xhtml : Bool := false
  deriving DecidableEq, Repr

def Format.isHtml (f : Format) : Bool := f.html4 || f.html5

structure Settings where
  /-- The text on both sides of an attribute value. -/
  wrapper : Text := ['\'']
  /-- Whether the wrapper is escaped inside values. One that was not given as text is not. -/
  escapesWrapper : Bool := true
  format : Format := { html5 := true }
  /-- Whether attribute values are escaped. -/
  escapeValues : Bool := false
  /-- Whether styles and scripts are put into CDATA sections. -/
  cdata : Bool := false
  /-- Whether the outline of the template is written in place of its markup. -/
  outline : Bool := false
  deriving DecidableEq, Repr

def Options.settings (o : Options) : Settings where
  wrapper := o.attrWrapper.asText
  escapesWrapper := match o.attrWrapper with
    | .text _ => true
    | _ => false
  format := { html4 := o.isHtml4, html5 := o.isHtml5, xhtml := o.isXhtml }
  escapeValues := o.escapeAttrs.isOn
  cdata := o.cdata.isOn
  outline := o.debugTree.isOn

end Haml
