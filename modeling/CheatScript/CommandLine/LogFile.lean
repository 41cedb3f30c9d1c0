import CheatScript.FileTree.Change

/-!
# Log files

A log file is opened for its first line and stays open. Lines go to the end of a file that was there
before. A new file is made with the folders it lies in, and each line goes where the one before
ended, even if the file has been written anew in the meantime; a gap is filled with zeros.
-/

namespace CheatScript

/-- A log file that is open. -/
structure OpenLog where
  /-- The place of the file. -/
  place : List Bytes
  /-- Where the next line goes; none for the end of the file. -/
  offset : Option Nat := none
  deriving DecidableEq, Repr

namespace OpenLog

/-- Opens a new log file; gives the tree with the folders that were made even if there is none. -/
def create (t : FileTree) (path : Bytes) : FileTree × Option OpenLog :=
  match t.makeFolders (Path.folder path) with
  | .error _ => (t, none)
  | .ok t => match t.find path, t.target path with
    | .error _, .ok place => (t.put place [], some ⟨place, some 0⟩)
    | _, _ => (t, none)

/-- Opens a log file, if that is possible. A folder is none. -/
def open? (t : FileTree) (path : Bytes) : FileTree × Option OpenLog :=
  match t.find path, t.place path with
  | .ok (.file _), .ok place => (t, some { place := place })
  | .error .missing, _ => create t path
  | _, _ => (t, none)

/-- The content with some bytes in place of those from an offset on. -/
def overwrite (content : Bytes) (offset : Nat) (s : Bytes) : Bytes :=
  content.take offset ++ List.replicate (offset - content.length) 0 ++ s
    ++ content.drop (offset + s.length)

/-- Writes to an open log file. -/
def write (log : OpenLog) (t : FileTree) (s : Bytes) : FileTree × OpenLog :=
  let content := (t.files.lookup log.place).getD []
  match log.offset with
  | none => (t.put log.place (content ++ s), log)
  | some n => (t.put log.place (overwrite content n s), { log with offset := some (n + s.length) })

end OpenLog

end CheatScript
