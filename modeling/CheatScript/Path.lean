import CheatScript.Text.Bytes

/-!
# Paths

File paths as texts with `/` between their elements. Everything here looks at the text alone and
never at a file.
-/

namespace CheatScript.Path

/-- The current folder. -/
def dot : Bytes := [Byte.dot]

/-- The folder above. -/
def dotDot : Bytes := [Byte.dot, Byte.dot]

/-- Whether a path starts at the root. -/
def isAbsolute (path : Bytes) : Bool := path.head? == some Byte.slash

/-- Adds an element to the elements of a clean path, last one first: nothing and `.` stay out, and
`..` takes back the element before it. At the root there is nothing to take back. -/
def push (rooted : Bool) (done : List Bytes) (element : Bytes) : List Bytes :=
  if element.isEmpty || element = dot then done
  else if element = dotDot then
    match done with
    | [] => if rooted then [] else [dotDot]
    | last :: before => if last = dotDot then dotDot :: done else before
  else element :: done

/-- The elements of a clean path. -/
def elements (path : Bytes) : List Bytes :=
  ((Bytes.split Byte.slash path).foldl (push (isAbsolute path)) []).reverse

/-- The shortest path that names the same place. -/
def clean (path : Bytes) : Bytes :=
  let text := Bytes.join [Byte.slash] (elements path)
  if isAbsolute path then Byte.slash :: text else if text.isEmpty then dot else text

/-- A path inside a folder. -/
def join (folder path : Bytes) : Bytes :=
  match folder.isEmpty, path.isEmpty with
  | true, true => []
  | true, false => clean path
  | false, true => clean folder
  | false, false => clean (folder ++ Byte.slash :: path)

/-- The part of a path up to its last slash, and the part after it. -/
def splitLast (path : Bytes) : Bytes × Bytes := match Bytes.cutLast? Byte.slash path with
  | some (before, after) => (before ++ [Byte.slash], after)
  | none => ([], path)

/-- The folder of a path. -/
def folder (path : Bytes) : Bytes := clean (splitLast path).1

/-- The extension of a path: what its last element has from the last full stop on. -/
def extension (path : Bytes) : Bytes := match Bytes.cutLast? Byte.dot (splitLast path).2 with
  | some (_, after) => Byte.dot :: after
  | none => []

/-- The last element of a path. -/
def base (path : Bytes) : Bytes :=
  if path.isEmpty then dot
  else
    let trimmed := Bytes.dropEndWhile (· == Byte.slash) path
    if trimmed.isEmpty then [Byte.slash] else (splitLast trimmed).2

end CheatScript.Path
