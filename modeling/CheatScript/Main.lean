import CheatScript.CommandLine.Clock
import CheatScript.CommandLine.Compiler
import CheatScript.CommandLine.Converter
import Std.Time.DateTime.Timestamp

/-!
# The programs

Loads the files that a command names, runs it, and puts its changes on the disk. The compiler and
the converter are one program; the name it is started by tells them apart.
-/

namespace CheatScript.Program

/-- The bytes of a text. -/
def bytesOf (s : String) : Bytes := s.toUTF8.toList

/-- The text of bytes. -/
def textOf (s : Bytes) : String := (String.fromUTF8? ⟨s.toArray⟩).getD ""

/-- The path of a place. -/
def pathOf (place : List Bytes) : String := textOf (Byte.slash :: Bytes.join [Byte.slash] place)

/-- The tree without files, at the current folder. -/
def startTree : IO FileTree := do
  let here ← IO.currentDir
  return { here := Path.elements (bytesOf here.toString), files := [] }

/-- Adds the file at a place, if there is one, and the folder it would lie in. -/
def loadPlace (t : FileTree) (place : List Bytes) : IO FileTree := do
  let here ← IO.currentDir
  let folder := place.dropLast
  let t ← if ← (here / pathOf folder).isDir then pure { t with folders := folder :: t.folders }
    else pure t
  let path := here / pathOf place
  if ← path.isDir then return { t with folders := place :: t.folders }
  else if ← path.pathExists then
    let content ← IO.FS.readBinFile path
    return t.put place content.toList
  else return t

/-- Adds the file with a path and the files that it includes. -/
partial def load (t : FileTree) (path : Bytes) : IO FileTree := do
  let place := t.absolute path
  if (t.files.lookup place).isSome then return t
  let t ← loadPlace t place
  match t.files.lookup place with
  | none => return t
  | some content => (Include.targets path content).foldlM load t

/-- Adds the files with several paths. -/
def loadAll (t : FileTree) (paths : List Bytes) : IO FileTree := paths.foldlM load t

/-- Writes the files that differ from those before, and prints what was written to the streams. -/
def commit (before : FileTree) (after : Console) : IO Unit := do
  let changed := after.files.files.filter fun (place, content) =>
    before.files.lookup place != some content
  (after.files.folders.filter (· ∉ before.folders)).forM fun place =>
    IO.FS.createDirAll (pathOf place)
  changed.forM fun (place, content) => do
    IO.FS.createDirAll (pathOf place.dropLast)
    IO.FS.writeBinFile (pathOf place) ⟨content.toArray⟩
  (← IO.getStdout).write ⟨after.stdout.toArray⟩
  (← IO.getStderr).write ⟨after.stderr.toArray⟩

/-- The variables of the environment that flags know. -/
def environment : IO (List (Bytes × Bytes)) :=
  (CompilerCommand.mainFlags.filterMap (·.variableName)).filterMapM fun name => do
    return (← IO.getEnv (textOf name)).map fun value => (name, bytesOf value)

/-- The time that a computation takes, in microseconds. -/
def microseconds {α : Type} (compute : Unit → α) : IO Nat := do
  let start ← IO.monoNanosNow
  -- a cell holds the value itself, so it has to be computed here
  let _ ← IO.mkRef (compute ())
  let stop ← IO.monoNanosNow
  return (stop - start + 500) / 1000

/-- Runs the compiler command. A first run that changes nothing tells how long it takes. -/
def compiler (args : List Bytes) : IO UInt32 := do
  let now ← Std.Time.Timestamp.now
  let host : CompilerCommand.Host :=
    { environment := ← environment
      isTerminal := ← (← IO.getStderr).isTty
      stamp := Clock.stamp now.toSecondsSinceUnixEpoch.val
      took := [] }
  let t ← startTree
  let t ← loadAll t (CompilerCommand.namedPaths host t args)
  let t ← loadAll t (CompilerCommand.namedPaths host t args)
  let micros ← microseconds fun _ => CompilerCommand.run host args { files := t }
  let host := { host with took := Clock.duration micros }
  let (result, after) := CompilerCommand.run host args { files := t }
  commit t after
  match result with
  | .ok () => return 0
  | .error e =>
    if e ≠ ascii "compile failed" then IO.eprintln ("Error: " ++ textOf e)
    return 1

/-- Runs the converter command. -/
def converter (args : List Bytes) : IO UInt32 := do
  let t ← loadAll (← startTree) args
  let (status, after) := ConverterCommand.run args { files := t }
  commit t after
  return status.toUInt32

end CheatScript.Program

/-- Runs the command that the name of the program asks for. -/
def main (args : List String) : IO UInt32 := do
  let args := args.map CheatScript.Program.bytesOf
  let name := (← IO.appPath).fileName.getD ""
  if name.startsWith "pnachconv" then CheatScript.Program.converter args
  else CheatScript.Program.compiler args
