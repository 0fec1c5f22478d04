import Haml.Template.Name
import Haml.Text.Shown
import Haml.Watch.Arguments
import Haml.Watch.Help
import Haml.Watch.Pass

/-!
Runs of the watcher: what it prints, how long it waits between passes and how it ends. What happens
to the files while it waits is given as a list of changes; when the list is used up, the run is
interrupted.
-/
namespace Haml.Watch

/-- What stays from one run to the next: the times of the compiled sources, whether the watcher is
talkative, and the end of the names of compiled files. -/
structure Memory where
  compiled : List (Path × Int) := []
  verbose : Bool := false
  outputEnd : Text := ".html".toList
  deriving Repr

structure Surroundings where
  /-- The name that the program was started under. -/
  program : Text
  workingDir : Path
  /-- What is printed in place of the working directory, if it has a name of its own. -/
  label : Option Text := none
  /-- The time of day as it is printed. -/
  time : Text
  /-- Whether each file is named as it is compiled. -/
  traces : Bool := false
  deriving Repr

def Surroundings.display (s : Surroundings) (p : Path) : Text :=
  match s.label, Path.below? s.workingDir p with
  | some label, some rest => label ++ rest.flatMap ('/' :: ·)
  | _, _ => Path.display p

def showNames (opening closing : Char) (ts : List Text) : Text :=
  opening :: ", ".toList.intercalate (ts.map Text.shown) ++ [closing]

def bareExtension : Text → Text
  | '.' :: t => t
  | t => t

namespace Arguments

def extensions (a : Arguments) : List Text :=
  match a.inputExtensions with
  | some es => es.map bareExtension
  | none => Template.extensions

/-- The extensions as they are printed: in round brackets if they are the usual ones. -/
def showExtensions (a : Arguments) : Text :=
  if a.inputExtensions.isSome then showNames '[' ']' a.extensions
  else showNames '(' ')' a.extensions

def options (a : Arguments) : List (Text × OptionValue) :=
  (if a.tags.isEmpty then []
    else [("custom_self_closing_tags".toList,
      .table (a.tags.map fun e => (e.1, .text e.2)))]) ++
  [("attr_wrapper".toList, .text a.attrWrapper)] ++
  (if a.inlineEquals then [("django_inline_style".toList, .flag true)] else []) ++
  (if a.jinja then [("tag_config".toList, .text "jinja2".toList)] else [])

def folder (a : Arguments) (s : Surroundings) : Path := Path.resolve s.workingDir a.inputDir

/-- The destination is the watched folder itself if none is given. -/
def destination (a : Arguments) (s : Surroundings) : Path :=
  match a.outputDir with
  | some d => if d.isEmpty then a.folder s else Path.resolve s.workingDir d
  | none => a.folder s

def job (a : Arguments) (s : Surroundings) (m : Memory) : Job where
  folder := a.folder s
  destination := a.destination s
  extensions := a.extensions
  outputEnd := m.outputEnd
  options := a.options

def greeting (a : Arguments) (s : Surroundings) : Text :=
  "Watching ".toList ++ s.display (a.folder s) ++ " at refresh interval ".toList ++
    (toString a.refresh).toList ++ " seconds".toList

end Arguments

/-- What arguments change in the memory of the watcher. -/
def Memory.adopt (m : Memory) (a : Arguments) : Memory :=
  { m with
    verbose := m.verbose || a.verbose
    outputEnd := if a.extension.isEmpty then m.outputEnd else a.extension }

/-- The path of a compiled file as it is printed: a point stands for the watched folder itself. -/
def showOutput (s : Surroundings) (job : Job) (source : Path) : Text :=
  let subfolder := if source.dropLast.isEmpty then [['.']] else source.dropLast
  s.display
    (job.destination ++ subfolder ++ [job.outputName (source.getLast?.getD [])])

def Attempt.lines (s : Surroundings) (verbose : Bool) (job : Job) (a : Attempt) : List Text :=
  let change :=
    s.display (job.folder ++ a.source) ++ " -> ".toList ++ showOutput s job a.source
  (if verbose then [s.time ++ ' ' :: change] else []) ++
  (if s.traces then ["Compiling ".toList ++ change] else []) ++
  match a.problem with
  | some reason => ["Failed to compile ".toList ++ change, "Reason:".toList, reason]
  | none => []

def passLines (s : Surroundings) (a : Arguments) (verbose : Bool) (job : Job)
    (attempts : List Attempt) : List Text :=
  ("_watch_folder(".toList ++ s.display job.folder ++ ", ".toList ++ a.showExtensions ++
    ", ".toList ++ s.display job.destination ++ [')']) ::
  attempts.flatMap (·.lines s verbose job)

/-- What is printed at the end of a run of a single pass. -/
def summaryLines (attempts : List Attempt) : List Text :=
  let failed := failures attempts
  ["Compiled ".toList ++ Text.ofNat (attempts.length - failed) ++ " of ".toList ++
      Text.ofNat attempts.length ++ " files.".toList,
   if failed = 0 then "All files compiled successfully.".toList
   else "Some files have errors.".toList]

/-- How a run went: its exit code, or nothing if it broke off, what it printed and how long it
waited after each pass. -/
structure Outcome where
  exit : Option Nat
  printed : List Text
  slept : List Int
  deriving DecidableEq, Repr

/-- Passes with waits between them until the changes are used up. -/
def watchLoop (s : Surroundings) (a : Arguments) (verbose : Bool) (job : Job) :
    World → List (FileSystem → FileSystem) → World × Outcome
  | w, changes =>
    let (w, attempts) := w.pass job
    let printed := passLines s a verbose job attempts
    match changes with
    | [] => (w, { exit := some 0, printed := printed, slept := [a.refresh] })
    | change :: changes =>
      let (w, rest) := watchLoop s a verbose job { w with files := change w.files } changes
      (w, { rest with printed := printed ++ rest.printed, slept := a.refresh :: rest.slept })

/-- A run of the watcher with given words on its command line. -/
def run (s : Surroundings) (m : Memory) (shared : Shared) (files : FileSystem) (words : List Text)
    (changes : List (FileSystem → FileSystem)) : Memory × Shared × FileSystem × Outcome :=
  match Arguments.parse words with
  | .error .usage => (m, shared, files, { exit := some 2, printed := [], slept := [] })
  | .error .help =>
    (m, shared, files, { exit := some 0, printed := Help.lines s.program, slept := [] })
  | .error .badPair => (m, shared, files, { exit := none, printed := [], slept := [] })
  | .ok a =>
    let m := m.adopt a
    let job := a.job s m
    let greeting := if a.verbose then [a.greeting s] else []
    let w : World := { files := files, compiled := m.compiled, shared := shared }
    let (w, outcome) :=
      if a.once then
        let (w, attempts) := w.pass job
        (w, { exit := some (failures attempts)
              printed := passLines s a m.verbose job attempts ++ summaryLines attempts
              slept := [] })
      else watchLoop s a m.verbose job w changes
    ({ m with compiled := w.compiled }, w.shared, w.files,
      { outcome with printed := greeting ++ outcome.printed })

end Haml.Watch
