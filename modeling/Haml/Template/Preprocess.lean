import Haml.Compile
import Haml.Template.Name

/-!
Templates on their way into other programs: a template engine that lets sources be preprocessed, and
the extraction of messages to be localised. Sources that are not templates pass unchanged.
-/
namespace Haml.Template

/-- A preprocessing error: a fault is reported as an error of the first line of a named template. -/
inductive PreprocessError where
  | syntaxFault (message : Text) (line : Nat) (name : Text) (file : Option Text)
  | failed (e : Failure)
  deriving DecidableEq, Repr

def preprocess (source name : Text) (file : Option Text) : Except PreprocessError Text :=
  if isTemplate name then
    match compile {} source with
    | .ok html => .ok html
    | .error (.rejected fault near) =>
      .error (.syntaxFault (Failure.rejected fault near).message 1 name file)
    | .error e => .error (.failed e)
  else .ok source

/-- The source that messages are extracted from. Without an origin it is not known to be a template.
-/
def extractionSource (source : Text) (origin : Option Text) : Except Failure Text :=
  if origin.any isTemplateAnyCase then compile {} source else .ok source

end Haml.Template
