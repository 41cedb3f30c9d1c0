import CheatScript.CommandLine.LogFile

/-!
# The console

What a command can change: the files and the two streams it writes to. A command that fails leaves
the changes it made before.
-/

namespace CheatScript

/-- The files and the output streams of a command. -/
structure Console where
  /-- The files. -/
  files : FileTree
  /-- What was written to the standard output. -/
  stdout : Bytes := []
  /-- What was written to the standard error stream. -/
  stderr : Bytes := []
  /-- The log file, once it is open. -/
  log : Option OpenLog := none

/-- A command: it may change the console, and fail with a text. -/
abbrev Action (α : Type) := Console → Except Bytes α × Console

namespace Action

/-- An action that gives a value. -/
def give {α : Type} (a : α) : Action α := fun c => (.ok a, c)

/-- One action after the other; a failure ends it. -/
def andThen {α β : Type} (a : Action α) (next : α → Action β) : Action β := fun c =>
  match a c with
  | (.error e, c) => (.error e, c)
  | (.ok v, c) => next v c

instance : Monad Action where
  pure := give
  bind := andThen

/-- An action that fails. -/
def fail {α : Type} (message : Bytes) : Action α := fun c => (.error message, c)

/-- The value of a result; a failure is explained by a text. -/
def ofExcept {ε α : Type} (message : ε → Bytes) : Except ε α → Action α
  | .ok a => give a
  | .error e => fail (message e)

/-- The files. -/
def files : Action FileTree := fun c => (.ok c.files, c)

/-- Writes to the standard output. -/
def print (s : Bytes) : Action Unit := fun c => (.ok (), { c with stdout := c.stdout ++ s })

/-- Writes to the standard error stream. -/
def complain (s : Bytes) : Action Unit := fun c => (.ok (), { c with stderr := c.stderr ++ s })

/-- Reads a file. -/
def read (path : Bytes) : Action Bytes := do
  ofExcept (·.readMessage path) ((← files).read path)

/-- Writes a file. -/
def write (path content : Bytes) : Action Unit := fun c =>
  match c.files.write path content with
  | .ok files => (.ok (), { c with files := files })
  | .error e => (.error (ascii "open " ++ path ++ ascii ": " ++ e.explanation), c)

/-- Writes to the log file with a path, if that is possible. -/
def log (path content : Bytes) : Action Unit := fun c =>
  let (files, opened) := match c.log with
    | some log => (c.files, some log)
    | none => OpenLog.open? c.files path
  match opened with
  | none => (.ok (), { c with files := files })
  | some log =>
    let (files, log) := log.write files content
    (.ok (), { c with files := files, log := some log })

/-- An action whose failure is told with a text in front. -/
def explained {α : Type} (lead : Bytes) (a : Action α) : Action α := fun c =>
  match a c with
  | (.error e, c) => (.error (lead ++ e), c)
  | (.ok v, c) => (.ok v, c)

end Action

end CheatScript
