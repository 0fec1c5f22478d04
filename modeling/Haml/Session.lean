import Haml.Compile

/-!
Sessions. Compilers of the same dialect share one table of closing tags, so a tag that one of them
adds is known to all of them. The filters are shared by all compilers.
-/
namespace Haml

/-- What the compilers of a session have in common. -/
structure Shared where
  django : Dictionary OptionValue TagKey := (Dialect.tags .django).closings
  jinja : Dictionary OptionValue TagKey := (Dialect.tags .jinja).closings
  filters : Filters := {}

/-- A compiler; its dialect and its inline marks are fixed when it is made. -/
structure Compiler where
  options : Options
  dialect : Dialect
  inlineEquals : Bool
  deriving Repr

namespace Compiler

/-- The compiler that options describe, whatever its own tags are. -/
def ofList (given : List (Text × OptionValue)) : Except Failure Compiler := do
  let options ← Options.ofList given
  let d ← Dialect.ofOption options.tagConfig
  return { options := options, dialect := d, inlineEquals := options.inlineEquals.isOn }

/-- The compiler that options describe, if nothing is wrong with its own tags. -/
def made (given : List (Text × OptionValue)) : Except Failure Compiler := do
  let c ← ofList given
  match c.options.closings.2 with
  | some e => .error e
  | none => .ok c

end Compiler

namespace Shared

def table (sh : Shared) : Dialect → Dictionary OptionValue TagKey
  | .django => sh.django
  | .jinja => sh.jinja

/-- The closing tags of the tags that have a name. -/
def closings (sh : Shared) (d : Dialect) : Dictionary OptionValue :=
  (sh.table d).filterMap fun e =>
    match e.1 with
    | .text name => some (name, e.2)
    | _ => none

def addClosings (sh : Shared) (d : Dialect) (new : Dictionary OptionValue TagKey) : Shared :=
  match d with
  | .django => { sh with django := sh.django.update new }
  | .jinja => { sh with jinja := sh.jinja.update new }

/-- Adds a compiler's own tags to the table of its dialect. If something is wrong with one of them,
those before it are added all the same. -/
def adopt (sh : Shared) (given : List (Text × OptionValue)) : Shared :=
  match Compiler.ofList given with
  | .ok c => sh.addClosings c.dialect c.options.closings.1
  | .error _ => sh

def compiler (sh : Shared) (given : List (Text × OptionValue)) : Except Failure Compiler × Shared :=
  (Compiler.made given, sh.adopt given)

end Shared

def Compiler.profile (c : Compiler) (sh : Shared) : Profile where
  settings := c.options.settings
  tags := { closings := sh.table c.dialect, inner := c.dialect.tags.inner }
  filters := sh.filters
  inlineEquals := c.inlineEquals

/-- Compilers made one after another, and what they share. One that could not be made keeps its
number. -/
structure Session where
  shared : Shared := {}
  compilers : List (Option Compiler) := []

namespace Session

def compiler (s : Session) (i : Nat) : Except Failure Compiler :=
  match s.compilers[i]? with
  | some (some c) => .ok c
  | some none => .error .notMade
  | none => .error .noSuchNumber

def create (s : Session) (given : List (Text × OptionValue)) : Except Failure Nat × Session :=
  let (made, shared) := s.shared.compiler given
  (made.map fun _ => s.compilers.length,
    { shared := shared, compilers := s.compilers ++ [made.toOption] })

def process (s : Session) (c : Compiler) (t : Text) : Except Failure Text :=
  compile (c.profile s.shared) t

/-- Gives the filter that is called `source` one more name. -/
def registerFilter (s : Session) (name source : Text) : Except Failure Session := do
  let f ← s.shared.filters.find source
  return { s with shared := { s.shared with filters := s.shared.filters.register name f } }

def setAvailable (s : Session) (markdown highlighter : Bool) : Session :=
  { s with shared := { s.shared with
      filters := { s.shared.filters with
        hasMarkdown := markdown
        hasHighlighter := highlighter } } }

/-- Changes an option of a compiler that has been made. -/
def setOption (s : Session) (i : Nat) (c : Compiler) (name : Text) (value : OptionValue) :
    Except Failure Session := do
  let options ← c.options.set name value
  return { s with compilers := s.compilers.set i (some { c with options := options }) }

end Session

/-- A compiler made on its own, as a profile. -/
def profileOf (given : List (Text × OptionValue)) : Except Failure Profile :=
  let (made, shared) := ({} : Shared).compiler given
  made.map (·.profile shared)

end Haml
