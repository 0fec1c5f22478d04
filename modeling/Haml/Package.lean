import Haml.Dictionary
import Haml.Text.Blank

/-! The description of the package for its distribution, which is put together from text files. -/
namespace Haml.Package

def name : Text := "django-hamlpy".toList

def version : Text := "1.1.1".toList

def commands : List Text := ["hamlpy-watcher = hamlpy.hamlpy_watcher:watch_folder".toList]

def isLineEnd (c : Char) : Bool :=
  let n := c.toNat
  (10 ≤ n && n ≤ 13) || (0x1C ≤ n && n ≤ 0x1E) || n == 0x85 || n == 0x2028 || n == 0x2029

/-- Whether a line names a requirement: it is neither blank nor a comment. -/
def isRequirement (line : Text) : Bool :=
  match Text.trim line with
  | [] => false
  | c :: _ => c != '#'

def requirements (t : Text) : List Text :=
  ((Text.splitWhen isLineEnd (Text.universalBreaks t)).filter isRequirement).map Text.trim

structure Description where
  longDescription : Text
  installRequires : List Text
  testsRequire : List Text
  /-- What is printed on the way. -/
  notices : List Text
  deriving DecidableEq, Repr

/-- The description made from the files of the package, or nothing if one is missing. With a
converter at hand the introduction is converted, and the file is not read here. -/
def describe (files : Dictionary Text) (hasConverter : Bool) : Option Description := do
  let longDescription ←
    if hasConverter then some "converted README.md to rst".toList
    else (files.get? "README.md".toList).map Text.universalBreaks
  let install ← files.get? "requirements/base.txt".toList
  let tests ← files.get? "requirements/tests.txt".toList
  return {
    longDescription := longDescription
    installRequires := requirements install
    testsRequire := requirements tests
    notices :=
      if hasConverter then []
      else ["warning: pypandoc module not found, could not convert Markdown to RST".toList] }

end Haml.Package
