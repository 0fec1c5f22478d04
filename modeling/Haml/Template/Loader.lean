import Haml.Session
import Haml.Template.Name

/-! A loader of templates from named files, which compiles them as it loads them. -/
namespace Haml.Template

inductive LoadError where
  | notFound
  | failed (e : Failure)
  deriving DecidableEq, Repr

structure Loader where
  files : Dictionary Text
  options : List (Text × OptionValue) := []
  deriving Repr

namespace Loader

/-- The options that a site's settings give for its templates. -/
def optionsOf (settings : List (Text × OptionValue)) : List (Text × OptionValue) :=
  let pick (setting name : String) :=
    ((settings.find? (·.1 == setting.toList)).map fun s => (name.toList, s.2)).toList
  pick "HAMLPY_ATTR_WRAPPER" "attr_wrapper" ++
    pick "HAMLPY_DJANGO_INLINE_STYLE" "django_inline_style"

def compileWith (l : Loader) (t : Text) : Except LoadError Text :=
  match profileOf l.options >>= fun p => compile p t with
  | .ok html => .ok html
  | .error e => .error (.failed e)

def contents (l : Loader) (name : Text) : Except LoadError Text :=
  match l.files.get? name with
  | none => .error .notFound
  | some t => if isTemplate name then l.compileWith t else .ok t

/-- A compiled template and the name it was found under. Files that are not templates are not found
here. -/
def source (l : Loader) (name : Text) : Except LoadError (Text × Text) :=
  match splitExtension name with
  | (stem, some e) =>
    if extensions.contains e then
      match l.files.get? (withExtension stem e) with
      | none => .error .notFound
      | some t => do return (← l.compileWith t, withExtension stem e)
    else .error .notFound
  | (_, none) => .error .notFound

end Loader

end Haml.Template
