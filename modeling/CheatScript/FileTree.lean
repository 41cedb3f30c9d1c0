import CheatScript.Path

/-!
# File trees

The files a program can see: regular files with their contents, and the folders that hold them. A
path is followed element by element, so every element but the last one has to be a folder.
-/

namespace CheatScript

/-- Why a file cannot be read. -/
inductive FileError
  /-- There is nothing with this path. -/
  | missing
  /-- The path names a folder. -/
  | isFolder
  /-- The path goes on after a file. -/
  | notFolder
  /-- The path or one of its elements has too many bytes. -/
  | tooLong
  /-- The path holds a zero byte. -/
  | invalid
  deriving DecidableEq, Repr

/-- The explanation of a file error. -/
def FileError.explanation : FileError → Bytes
  | .missing => ascii "no such file or directory"
  | .isFolder => ascii "is a directory"
  | .notFolder => ascii "not a directory"
  | .tooLong => ascii "file name too long"
  | .invalid => ascii "invalid argument"

/-- The text of an error while reading the file with a path. -/
def FileError.readMessage (e : FileError) (path : Bytes) : Bytes :=
  let verb := match e with
    | .isFolder => ascii "read "
    | _ => ascii "open "
  verb ++ path ++ ascii ": " ++ e.explanation

/-- Files and folders, named by their elements from the root on. -/
structure FileTree where
  /-- The folder in which relative paths start. -/
  here : List Bytes
  /-- The regular files with their contents. -/
  files : List (List Bytes × Bytes)
  /-- Folders that are there even if they hold no file. -/
  folders : List (List Bytes) := []

/-- What a path names. -/
inductive FileNode
  /-- A regular file. -/
  | file (content : Bytes)
  /-- A folder. -/
  | folder

namespace FileTree

/-- The greatest number of bytes of an element of a path. -/
def maxElement : Nat := 255

/-- The greatest number of bytes of a path. -/
def maxPath : Nat := 4095

/-- Whether a folder is there: the current folder, one that is known, one above these, or one that
holds a file. -/
def isFolder (t : FileTree) (place : List Bytes) : Bool :=
  place.isPrefixOf t.here || t.folders.any (place.isPrefixOf ·)
    || t.files.any fun (path, _) => place.isPrefixOf path && place ≠ path

/-- What is at a place. -/
def node? (t : FileTree) (place : List Bytes) : Option FileNode :=
  match t.files.lookup place with
  | some content => some (.file content)
  | none => if t.isFolder place then some .folder else none

/-- The place one element of a path further on. At the root there is nothing above. -/
def enter (place : List Bytes) (e : Bytes) : List Bytes :=
  if e.isEmpty || e = Path.dot then place
  else if e = Path.dotDot then place.dropLast
  else place ++ [e]

/-- Follows elements from a place on. -/
def follow (t : FileTree) : (place elements : List Bytes) → Except FileError (List Bytes)
  | place, [] => .ok place
  | place, e :: rest => match t.node? place with
    | none => .error .missing
    | some (.file _) => .error .notFolder
    | some .folder =>
      if maxElement < e.length then .error .tooLong else follow t (enter place e) rest

/-- The folder from which a path is followed. -/
def start (t : FileTree) (path : Bytes) : List Bytes := if Path.isAbsolute path then [] else t.here

/-- The place a path leads to, whether there is something or not. -/
def place (t : FileTree) (path : Bytes) : Except FileError (List Bytes) :=
  if path.contains 0 then .error .invalid
  else if path.isEmpty then .error .missing
  else if maxPath < path.length then .error .tooLong
  else t.follow (t.start path) (Bytes.split Byte.slash path)

/-- What a path names. -/
def find (t : FileTree) (path : Bytes) : Except FileError FileNode := do
  let place ← t.place path
  match t.node? place with
  | some node => return node
  | none => .error .missing

/-- The content of the regular file with a path. -/
def read (t : FileTree) (path : Bytes) : Except FileError Bytes := do
  match ← t.find path with
  | .file content => return content
  | .folder => .error .isFolder

/-- The elements that a path has from the root on, whatever is there on the way. -/
def absolute (t : FileTree) (path : Bytes) : List Bytes :=
  (Bytes.split Byte.slash path).foldl enter (t.start path)

/-- Whether two paths name the same place. -/
def samePlace (t : FileTree) (a b : Bytes) : Bool := t.absolute a == t.absolute b

end FileTree

end CheatScript
