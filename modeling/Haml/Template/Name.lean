import Haml.Text.LowerCase

/-! Names of template files, and which of them hold templates for this compiler. -/
namespace Haml.Template

def extensions : List Text := ["haml".toList, "hamlpy".toList]

/-- A name without its extension, and the extension without its point. Points at the start of the
last component of a path do not start an extension. -/
def splitExtension (name : Text) : Text × Option Text :=
  let isEnd (c : Char) : Bool := c == '.' || c == '/'
  let extension := (name.reverse.takeWhile (! isEnd ·)).reverse
  match name.reverse.dropWhile (! isEnd ·) with
  | '.' :: stem =>
    if (stem.takeWhile (· != '/')).all (· == '.') then (name, none)
    else (stem.reverse, some extension)
  | _ => (name, none)

def isTemplate (name : Text) : Bool := (splitExtension name).2.any extensions.contains

def isTemplateAnyCase (name : Text) : Bool :=
  (splitExtension name).2.any fun e => extensions.contains (Text.lower e)

def withExtension (stem extension : Text) : Text := stem ++ '.' :: extension

/-- The extensions of pages that a template may stand in for. -/
def pageExtensions : List Text := ["html".toList, "htm".toList, "xml".toList]

/-- The template names that stand in for a page. -/
def standIns (name : Text) : List Text :=
  (pageExtensions.filter fun e => Text.endsWith ('.' :: e) name).flatMap fun e =>
    extensions.map fun t => name.take (name.length - e.length) ++ t

def candidates (names : List Text) : List Text := names.flatMap standIns ++ names

end Haml.Template
