import Haml.Watch.Run
import Std.Time.Zoned

/-!
The command that watches a folder of templates and keeps their compiled files fresh. It takes a
picture of the files, lets a pass work on the picture and then writes the files that the pass wrote.
-/
namespace Haml.Watch

def program : Text := "hamlpy-watcher".toList

def diskPath (p : Path) : String := String.ofList p.display

/-- What is below a directory. Only files that are watched are read. -/
partial def scan (job : Job) (dir : Path) : IO FileSystem := do
  let entries ← try (← IO.FS.realPath (diskPath dir)).readDir catch _ => pure #[]
  let mut found : FileSystem := { directories := [dir] }
  for e in entries do
    let p := dir ++ [e.fileName.toList]
    if ← e.path.isDir then
      let below ← scan job p
      found := { found with
        files := found.files ++ below.files
        directories := found.directories ++ below.directories }
    else
      let content ←
        if job.watches e.fileName.toList then ByteArray.toList <$> IO.FS.readBinFile e.path
        else pure []
      let time := (← e.path.metadata).modified
      found := found.put p
        { content := content, modified := time.sec * 1000000000 + time.nsec.toNat }
  return found

/-- A picture of the files that a pass may look at. -/
def picture (job : Job) : IO FileSystem := do
  let sources ← scan job job.folder
  let outputs ← scan job job.destination
  return { sources with
    files := sources.files ++ outputs.files.filter fun e => (Path.below? job.folder e.1).isNone }

def timeOfDay : IO Text := do
  let now ← Std.Time.PlainDateTime.now
  let two (n : Int) : String := if n < 10 then s!"0{n}" else toString n
  return (two now.hour.val ++ ":" ++ two now.minute.val ++ ":" ++ two now.second.val).toList

def printLines (ls : List Text) : IO Unit := do
  ls.forM fun l => IO.println (String.ofList l)
  (← IO.getStdout).flush

def passOnDisk (s : Surroundings) (a : Arguments) (job : Job) (w : World) :
    IO (World × List Attempt) := do
  let w := { w with files := ← picture job }
  let (w, attempts) := w.pass job
  let s := { s with time := ← timeOfDay }
  printLines (passLines s a a.verbose job attempts)
  for attempt in attempts do
    if attempt.problem.isNone then
      let target := job.output attempt.source
      if let some file := w.files.find? target then
        IO.FS.createDirAll (diskPath target.dropLast)
        IO.FS.writeBinFile (diskPath target) (ByteArray.mk file.content.toArray)
  return (w, attempts)

/-- Passes with waits between them, without an end. -/
partial def watchOnDisk (s : Surroundings) (a : Arguments) (job : Job) (w : World) : IO UInt32 := do
  let (w, _) ← passOnDisk s a job w
  IO.sleep (a.refresh.toNat * 1000).toUInt32
  watchOnDisk s a job w

def command (words : List String) : IO UInt32 := do
  match Arguments.parse (words.map (·.toList)) with
  | .error .usage =>
    (Help.usage program).forM fun l => IO.eprintln (String.ofList l)
    return 2
  | .error .help =>
    printLines (Help.lines program)
    return 0
  | .error .badPair =>
    IO.eprintln "A tag is given as its name and its closing tag with one colon between."
    return 1
  | .ok a =>
    let workingDir := Path.resolve [] (← IO.currentDir).toString.toList
    let s : Surroundings := { program := program, workingDir := workingDir, time := [] }
    let job := a.job s (({} : Memory).adopt a)
    if a.verbose then printLines [a.greeting s]
    if a.once then
      let (_, attempts) ← passOnDisk s a job {}
      printLines (summaryLines attempts)
      return (failures attempts).toUInt32
    else watchOnDisk s a job {}

end Haml.Watch

def main (words : List String) : IO UInt32 := Haml.Watch.command words
