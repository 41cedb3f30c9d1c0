import CheatScript.Token

/-!
# Commands

A command is one line of a script, split into a name and arguments. It remembers where it came from:
its own line first, then the lines of the includes and calls that brought it in, so that a
diagnostic can show the way from the main script to the line at fault.
-/

namespace CheatScript

/-- One source line on the way to a command. -/
structure Frame where
  /-- The file that holds the line. -/
  file : Bytes
  /-- The text of the line, after clean-up. -/
  line : Bytes
  /-- The index of the line in the file, from zero; a line below zero lies before the file. -/
  index : Int
  deriving DecidableEq, Repr

/-- The number that a diagnostic gives for the line with an index. Lines are numbered from one, in
signed numbers of 64 bits. -/
def lineNumber (index : Int) : Int := (index + 1).bmod 0x10000000000000000

/-- A command of a script. -/
structure Command where
  /-- The line the command was read from. -/
  text : Bytes
  /-- The name in upper case. -/
  name : Bytes
  /-- The argument tokens, with the `+` or `,` in front of them. -/
  args : List Bytes
  /-- The position in the flattened script, which decides the definitions the command sees. -/
  position : Int := 0
  /-- Where the command comes from, innermost first. -/
  trace : List Frame := []
  /-- The functions whose calls produced the command, outermost first. -/
  callers : List Bytes := []
  deriving DecidableEq, Repr

namespace Command

/-- The command of a line, without an origin. -/
def ofLine (line : Bytes) : Command :=
  let (name, args) := Token.ofLine line
  { text := line, name := name, args := args }

/-- The command of a line that stands for `source`: it keeps the text, position and origin of
`source`. With `keepArgs` its arguments are those of `source` but the first. -/
def restate (source : Command) (line : Bytes) (keepArgs : Bool) : Command :=
  let (name, args) := Token.ofLine line
  { source with name := name, args := if keepArgs then source.args.drop 1 else args }

/-- The same source line with another name and other arguments. -/
def withParts (c : Command) (name : Bytes) (args : List Bytes) : Command :=
  { c with name := name, args := args }

/-- The number of words: the name and every argument. -/
def wordCount (c : Command) : Nat := c.args.length + 1

/-- The file of the command's own line; empty without an origin. -/
def file (c : Command) : Bytes := match c.trace with
  | f :: _ => f.file
  | [] => []

/-- The index of the command's own line; zero without an origin. -/
def lineIndex (c : Command) : Int := match c.trace with
  | f :: _ => f.index
  | [] => 0

/-- Notes that `parent` brought the command in. -/
def broughtBy (c parent : Command) : Command := { c with trace := c.trace ++ parent.trace }

end Command

/-- The commands numbered from zero in list order. -/
def renumber (cmds : List Command) : List Command :=
  cmds.zipIdx.map fun (c, i) => { c with position := i }

end CheatScript
