import Haml.Session
import Haml.Text.Utf8
import Haml.Watch.FileSystem

/-!
A pass over a watched folder. Every source file that is new, that has changed since it was last
compiled or whose compiled file is missing is compiled into the destination, under the same
subfolder. A file that cannot be compiled leaves its compiled file as it was. A pass goes through a
folder file by file and then folder by folder, each as it was when the pass came to it.
-/
namespace Haml.Watch

/-- What is watched, and how it is compiled. -/
structure Job where
  folder : Path
  destination : Path
  extensions : List Text
  /-- What a compiled file ends in, in place of the extension of its source. -/
  outputEnd : Text
  options : List (Text × OptionValue) := []
  deriving Repr

/-- The files, the times of the sources when they were last compiled, and what compilers share. -/
structure World where
  files : FileSystem := {}
  compiled : List (Path × Int) := []
  shared : Shared := {}

/-- A compilation that a pass has tried: the path of the source in the watched folder, and the
reason if it failed. -/
structure Attempt where
  source : Path
  problem : Option Text
  deriving DecidableEq, Repr

namespace Job

/-- Whether a file of a given name is watched. Names that start with a point and a hash belong to an
editor. -/
def watches (job : Job) (name : Text) : Bool :=
  !Text.startsWith ['.', '#'] name && job.extensions.any fun e => Text.endsWith ('.' :: e) name

def outputName (job : Job) (name : Text) : Text :=
  ((name.reverse.dropWhile (· != '.')).drop 1).reverse ++ job.outputEnd

def output (job : Job) (source : Path) : Path :=
  job.destination ++ source.dropLast ++ [job.outputName (source.getLast?.getD [])]

end Job

/-- The compiled form of a source file, or the reason why there is none. A compiler is made for each
file that is text. -/
def compileFile (options : List (Text × OptionValue)) (shared : Shared) (content : List UInt8) :
    Except Text Text × Shared :=
  match Text.Utf8.decode content with
  | .error report => (.error report, shared)
  | .ok t =>
    match shared.compiler options with
    | (.error e, shared) => (.error e.message, shared)
    | (.ok c, shared) => ((compile (c.profile shared) t).mapError Failure.message, shared)

def noDirectory : Text := "No such file or directory".toList

namespace World

def note (w : World) (source : Path) (modified : Int) : World :=
  { w with compiled := (source, modified) :: w.compiled.filter (·.1 != source) }

def isDue (w : World) (source output : Path) (modified : Int) : Bool :=
  match w.compiled.lookup source with
  | none => true
  | some t => t < modified || (w.files.find? output).isNone

def prepare (job : Job) (w : World) (p : Path) : World :=
  { w with files := w.files.makeDirectory (job.destination ++ p.dropLast) }

def visit (job : Job) (w : World) (p : Path) : World × Option Attempt :=
  match w.files.find? (job.folder ++ p) with
  | none => (w, none)
  | some f =>
    let w := w.prepare job p
    if w.isDue (job.folder ++ p) (job.output p) f.modified then
      let w := w.note (job.folder ++ p) f.modified
      match compileFile job.options w.shared f.content with
      | (.error reason, shared) =>
        ({ w with shared := shared }, some { source := p, problem := some reason })
      | (.ok html, shared) =>
        match w.files.write (job.output p) (Text.Utf8.encode html) with
        | none => ({ w with shared := shared }, some { source := p, problem := some noDirectory })
        | some files =>
          ({ w with files := files, shared := shared }, some { source := p, problem := none })
    else (w, none)

def visitAll (job : Job) : World → List Path → World × List Attempt
  | w, [] => (w, [])
  | w, p :: ps =>
    let (w, attempt) := w.visit job p
    let (w, attempts) := visitAll job w ps
    (w, attempt.toList ++ attempts)

/-- The sources in a subfolder of the watched folder, as paths from there. -/
def sourcesIn (job : Job) (w : World) (dir : Path) : List Path :=
  ((w.files.filesIn (job.folder ++ dir)).filter job.watches).map fun name => dir ++ [name]

/-- A pass over a subfolder of the watched folder and the folders below it. -/
def passIn (job : Job) : Nat → World → Path → World × List Attempt
  | 0, w, _ => (w, [])
  | levels + 1, w, dir =>
    let subfolders := w.files.directoriesIn (job.folder ++ dir)
    subfolders.foldl
      (fun done name =>
        let (w, attempts) := passIn job levels done.1 (dir ++ [name])
        (w, done.2 ++ attempts))
      (visitAll job w (w.sourcesIn job dir))

def pass (job : Job) (w : World) : World × List Attempt := passIn job w.files.extent w []

end World

def failures (attempts : List Attempt) : Nat := attempts.countP (·.problem.isSome)

end Haml.Watch
