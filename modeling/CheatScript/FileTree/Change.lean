import CheatScript.FileTree

/-!
# Changes of file trees

Files are written and folders are made. A path with a slash at its end names a folder, so no file
can be written with it.
-/

namespace CheatScript.FileTree

/-- Puts a file at a place, in place of the one that is there. -/
def put (t : FileTree) (place : List Bytes) (content : Bytes) : FileTree :=
  { t with files := (place, content) :: t.files.filter (·.1 ≠ place) }

/-- The place where a file with a path is written. The folder it lies in has to be there. -/
def target (t : FileTree) (path : Bytes) : Except FileError (List Bytes) := do
  let stem := Bytes.dropEndWhile (· == Byte.slash) path
  let place ← t.place (if stem.isEmpty then path else stem)
  match t.node? place with
  | some .folder => .error .isFolder
  | _ => if stem = path then return place else .error .isFolder

/-- Writes a file in place of the one that is there. -/
def write (t : FileTree) (path content : Bytes) : Except FileError FileTree :=
  (t.target path).map fun place => t.put place content

/-- Makes a folder and the folders above it, as far as they are not there. -/
def makeFolders (t : FileTree) (path : Bytes) : Except FileError FileTree :=
  let place := t.absolute path
  if t.files.any fun (file, _) => file.isPrefixOf place then .error .notFolder
  else if place.any fun e => maxElement < e.length then .error .tooLong
  else .ok { t with folders := place :: t.folders }

end CheatScript.FileTree
