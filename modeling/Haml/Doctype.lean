import Haml.Options
import Haml.Text.Blank
import Haml.Text.LowerCase

/-! Document types: the first line of a page, by the version that the template names. -/
namespace Haml.Doctype

def publicId (name address : String) : Text :=
  "<!DOCTYPE html PUBLIC \"".toList ++ name.toList ++ "\" \"".toList ++ address.toList ++
    "\">".toList

def html5 : Text := "<!DOCTYPE html>".toList

def xhtmlTransitional : Text :=
  publicId "-//W3C//DTD XHTML 1.0 Transitional//EN"
    "http://www.w3.org/TR/xhtml1/DTD/xhtml1-transitional.dtd"

def xhtmlVersions : List (Text × Text) :=
  [("1.1".toList,
    publicId "-//W3C//DTD XHTML 1.1//EN" "http://www.w3.org/TR/xhtml11/DTD/xhtml11.dtd"),
   ("strict".toList,
    publicId "-//W3C//DTD XHTML 1.0 Strict//EN"
      "http://www.w3.org/TR/xhtml1/DTD/xhtml1-strict.dtd"),
   ("frameset".toList,
    publicId "-//W3C//DTD XHTML 1.0 Frameset//EN"
      "http://www.w3.org/TR/xhtml1/DTD/xhtml1-frameset.dtd"),
   ("mobile".toList,
    publicId "-//WAPFORUM//DTD XHTML Mobile 1.2//EN"
      "http://www.openmobilealliance.org/tech/DTD/xhtml-mobile12.dtd"),
   ("rdfa".toList,
    publicId "-//W3C//DTD XHTML+RDFa 1.0//EN" "http://www.w3.org/MarkUp/DTD/xhtml-rdfa-1.dtd"),
   ("basic".toList,
    publicId "-//W3C//DTD XHTML Basic 1.1//EN"
      "http://www.w3.org/TR/xhtml-basic/xhtml-basic11.dtd")]

def html4Transitional : Text :=
  publicId "-//W3C//DTD HTML 4.01 Transitional//EN" "http://www.w3.org/TR/html4/loose.dtd"

def html4Versions : List (Text × Text) :=
  [("strict".toList, publicId "-//W3C//DTD HTML 4.01//EN" "http://www.w3.org/TR/html4/strict.dtd"),
   ("frameset".toList,
    publicId "-//W3C//DTD HTML 4.01 Frameset//EN" "http://www.w3.org/TR/html4/frameset.dtd")]

/-- The XML declaration; the second word of the version is the encoding. -/
def xmlDeclaration (s : Settings) (version : Text) : Text :=
  let encoding := match Text.words version with
    | _ :: e :: _ => e
    | _ => "utf-8".toList
  "<?xml version=".toList ++ s.wrapper ++ "1.0".toList ++ s.wrapper ++ " encoding=".toList ++
    s.wrapper ++ encoding ++ s.wrapper ++ " ?>".toList

def version (line : Text) : Text := Text.lower (Text.trim (Text.dropChar '!' line))

/-- The first line of a page. -/
def header (s : Settings) (line : Text) : Text :=
  let v := version line
  if Text.startsWith "xml".toList v then
    if s.format.isHtml then [] else xmlDeclaration s v
  else if s.format.html5 then html5
  else if s.format.xhtml then
    if v = ['5'] then html5 else (xhtmlVersions.lookup v).getD xhtmlTransitional
  else (html4Versions.lookup v).getD html4Transitional

end Haml.Doctype
