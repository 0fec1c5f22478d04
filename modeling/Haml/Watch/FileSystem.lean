import Haml.Text.Basic

/-!
Files by path. A path is the list of its components from the root on. A directory exists if a file
is below it or if it was made.
-/
namespace Haml.Watch

abbrev Path := List Text

namespace Path

def follow (dir : Path) (component : Text) : Path :=
  if component = [] ∨ component = ['.'] then dir
  else if component = ['.', '.'] then dir.dropLast
  else dir ++ [component]

/-- The path that a text stands for in a working directory. -/
def resolve (workingDir : Path) (t : Text) : Path :=
  (Text.splitWhen (· == '/') t).foldl follow (if t.head? = some '/' then [] else workingDir)

def display (p : Path) : Text := if p.isEmpty then ['/'] else p.flatMap ('/' :: ·)

def below? : (dir p : Path) → Option Path
  | [], p => some p
  | _ :: _, [] => none
  | d :: dir, c :: p => if d = c then below? dir p else none

end Path

structure File where
  content : List UInt8
  /-- The time of the last change. Times are compared with each other and put to no other use. -/
  modified : Int
  deriving DecidableEq, Repr

structure FileSystem where
  files : List (Path × File) := []
  /-- Directories that exist even if no file is below them. -/
  directories : List Path := []
  /-- The time that the next file written gets. -/
  clock : Int := 0
  deriving DecidableEq, Repr

namespace FileSystem

def find? (fs : FileSystem) (p : Path) : Option File := fs.files.lookup p

/-- Puts a file where it is wanted, in place of one that is there. -/
def put (fs : FileSystem) (p : Path) (f : File) : FileSystem :=
  { fs with files := replaceOrAdd fs.files }
where
  replaceOrAdd : List (Path × File) → List (Path × File)
  | [] => [(p, f)]
  | (q, g) :: files => if q = p then (p, f) :: files else (q, g) :: replaceOrAdd files

def hasDirectory (fs : FileSystem) (dir : Path) : Bool :=
  fs.files.any (fun e => (Path.below? dir e.1).any (!·.isEmpty)) ||
    fs.directories.any fun d => (Path.below? dir d).isSome

def putNow (fs : FileSystem) (p : Path) (content : List UInt8) : FileSystem :=
  { fs.put p { content := content, modified := fs.clock } with clock := fs.clock + 1 }

/-- Writes a file now, if its directory exists. -/
def write (fs : FileSystem) (p : Path) (content : List UInt8) : Option FileSystem :=
  if fs.hasDirectory p.dropLast then some (fs.putNow p content) else none

def touch (fs : FileSystem) (p : Path) (modified : Int) : FileSystem :=
  match fs.find? p with
  | some f => fs.put p { f with modified := modified }
  | none => fs

/-- Removes a file. Its directory stays. -/
def remove (fs : FileSystem) (p : Path) : FileSystem :=
  { fs with
    files := fs.files.filter (·.1 != p)
    directories := p.dropLast :: fs.directories }

def makeDirectory (fs : FileSystem) (p : Path) : FileSystem :=
  if fs.directories.contains p then fs else { fs with directories := p :: fs.directories }

def sortNames (names : List Text) : List Text := names.mergeSort fun a b => !(b < a)

def filesIn (fs : FileSystem) (dir : Path) : List Text :=
  sortNames (fs.files.filterMap fun e => match Path.below? dir e.1 with
    | some [name] => some name
    | _ => none)

def directoriesIn (fs : FileSystem) (dir : Path) : List Text :=
  let implied := fs.files.filterMap fun e => match Path.below? dir e.1 with
    | some (name :: _ :: _) => some name
    | _ => none
  let made := fs.directories.filterMap fun d => (Path.below? dir d).bind List.head?
  sortNames (implied ++ made).eraseDups

/-- More than the number of levels that a walk through the directories can meet, also if files are
written on the way to places that follow from those that are there. -/
def extent (fs : FileSystem) : Nat :=
  ((fs.files.map (·.1)) ++ fs.directories).flatten.length + 2

end FileSystem

end Haml.Watch
