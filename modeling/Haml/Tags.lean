import Haml.Options

/-!
Tags of the template language that the output is written in. A tag that opens a block has a closing
tag, which the compiler writes itself, and some blocks have inner tags such as `else`.
-/
namespace Haml

inductive Dialect where
  | django
  | jinja
  deriving DecidableEq, Repr

/-- What a closing tag is filed under. Tags have texts as their names, but options can give closing
tags to other values too. -/
inductive TagKey where
  | text (t : Text)
  | number (q : Rat)
  | nothing
  deriving DecidableEq, Repr

structure Tags where
  /-- The closing tag of each block tag, as it was given. -/
  closings : Dictionary OptionValue TagKey
  /-- The tags that belong inside a block tag although they are not indented. -/
  inner : Dictionary (List Text)
  deriving Repr

namespace Tags

/-- The closing tag to be written for a tag. One that is switched off is not written. -/
def closing? (tags : Tags) (name : Text) : Option Text :=
  (tags.closings.get? (.text name)).bind fun v => if v.isOn then some v.asText else none

def isClosing (tags : Tags) (name : Text) : Bool :=
  tags.closings.any fun e => e.2.isText name

/-- Whether `tag` belongs inside `block` at the same indentation. A block without inner tags takes
the nameless tag only. -/
def belongsIn (tags : Tags) (block tag : Text) : Bool :=
  match tags.inner.get? block with
  | some names => names.contains tag
  | none => tag.isEmpty

end Tags

namespace Dialect

/-- The dialect that an option names. Lists and tables are no names at all. -/
def ofOption : OptionValue → Except Failure Dialect
  | .text t =>
    if t = "django".toList then .ok django
    else if t = "jinja2".toList then .ok jinja
    else .error .unknownDialect
  | .list _ | .table _ => .error .unnamedDialect
  | _ => .error .unknownDialect

def closingRows (rows : List (String × String)) : Dictionary OptionValue TagKey :=
  rows.map fun r => (.text r.1.toList, .text r.2.toList)

def innerRows (rows : List (String × List String)) : Dictionary (List Text) :=
  rows.map fun r => (r.1.toList, r.2.map (·.toList))

/-- The tags that a language has from the start. -/
def tags : Dialect → Tags
  | django =>
    { closings := closingRows
        [("for", "endfor"), ("if", "endif"), ("ifchanged", "endifchanged"),
         ("ifequal", "endifequal"), ("ifnotequal", "endifnotequal"), ("block", "endblock"),
         ("filter", "endfilter"), ("autoescape", "endautoescape"), ("with", "endwith"),
         ("blocktrans", "endblocktrans"), ("spaceless", "endspaceless"),
         ("comment", "endcomment"), ("cache", "endcache"), ("localize", "endlocalize"),
         ("call", "endcall"), ("macro", "endmacro"), ("compress", "endcompress")]
      inner := innerRows
        [("blocktrans", ["plural"]), ("if", ["else", "elif"]), ("ifchanged", ["else"]),
         ("ifequal", ["else"]), ("ifnotequal", ["else"]), ("for", ["empty"])] }
  | jinja =>
    { closings := closingRows
        [("for", "endfor"), ("if", "endif"), ("block", "endblock"), ("filter", "endfilter"),
         ("with", "endwith"), ("call", "endcall"), ("macro", "endmacro"), ("raw", "endraw")]
      inner := innerRows [("if", ["else", "elif"]), ("for", ["empty", "else"])] }

end Dialect

namespace OptionValue

/-- Numbers are told apart by their values, and the flags are one and zero. A list or a table cannot
be a key. -/
def tagKey? : OptionValue → Option TagKey
  | .text t => some (.text t)
  | .nothing => some .nothing
  | v => v.fraction?.map fun r => .number (mkRat r.1 (Nat.pow 10 r.2))

/-- What a value is made of: the items of a list, the characters of a text, the keys of a table. -/
def parts? : OptionValue → Option (List OptionValue)
  | .list items => some items
  | .text t => some (t.map fun c => .text [c])
  | .table rows => some (rows.map fun r => .text r.1)
  | _ => none

/-- A key and its closing tag as the two parts of a value. -/
def tagPair (v : OptionValue) : Except Failure (TagKey × OptionValue) :=
  match v.parts? with
  | none => .error .notTable
  | some [key, closing] =>
    match key.tagKey? with
    | some key => .ok (key, closing)
    | none => .error .notTable
  | some _ => .error .notPair

/-- The pairs up to the first value that is none, and what is wrong with that value. -/
def tagPairs : List OptionValue → Dictionary OptionValue TagKey × Option Failure
  | [] => ([], none)
  | v :: vs =>
    match v.tagPair with
    | .ok pair => (pair :: (tagPairs vs).1, (tagPairs vs).2)
    | .error e => ([], some e)

end OptionValue

/-- Additional closing tags as options give them, in a table or as pairs. If something is wrong with
them, those that come before it count nevertheless. -/
def Options.closings (o : Options) : Dictionary OptionValue TagKey × Option Failure :=
  match o.customTags with
  | .table rows => (rows.map fun r => (.text r.1, r.2), none)
  | v =>
    match v.parts? with
    | some vs => OptionValue.tagPairs vs
    | none => ([], some .notTable)

end Haml
