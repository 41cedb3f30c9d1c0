import CheatScript.FileTree
import CheatScript.Journal
import CheatScript.Source

/-!
# Included files

An Include outside a function definition stands for the commands of another file, in which includes
are worked in too. A symbol file stands for one definition of a variable for each of its labels. A
file never includes itself, directly or through others, so the nesting is bounded by the number of
files.
-/

namespace CheatScript.Include

/-- The path that an Include names, seen from the folder of its own file. -/
def pathOf (c : Command) (name : Bytes) : Bytes :=
  if Path.isAbsolute name then name else Path.join (Path.folder c.file) name

/-- The path of the file that an Include asks for. -/
def target (c : Command) : Except Fault Bytes := match c.args with
  | [name] => match Argument.unquote name with
    | .ok name => .ok (pathOf c name)
    | .error _ => .error .missingQuotes
  | _ => .error .wrongSyntax

/-- The Set command of a line of a symbol file: its first word is an address, its second one a
label. Lines of another form and data directives have none. -/
def symbol? (c : Command) : Option Command := match c.args with
  | [] => none
  | label :: _ =>
    if label.head? == some Byte.dot || !Literal.isAddress c.name then none
    else some (c.withParts (ascii "SET") [label, c.name])

/-- Whether a path is that of a symbol file. -/
def isSymbolFile (path : Bytes) : Bool := Path.extension path == ascii ".sym"

/-- The commands of the content of an included file. -/
def commandsOf (path content : Bytes) : List Command :=
  let cmds := Source.commands path (Source.cleanUp (Source.linesOf content))
  if isSymbolFile path then cmds.filterMap symbol? else cmds

/-- The paths that the Includes in a file name. -/
def targets (path content : Bytes) : List Bytes :=
  ((commandsOf path content).filter (·.name == ascii "INCLUDE")).filterMap fun c =>
    (target c).toOption

/-- The file that an Include names and its content. A file on the way to the Include is refused. -/
def open? (files : FileTree) (c : Command) : Except Fault (Bytes × Bytes) := do
  let path ← target c
  if c.trace.any fun frame => files.samePlace frame.file path then .error .includeStackOverflow
  else match files.read path with
    | .ok content => return (path, content)
    | .error _ => .error .valueInvalid

/-- Commands, and whether a function definition is open after them. -/
abbrev Expansion := List Command × Bool

/-- Works in the includes of a list of commands, where `nested` does so for the commands of an
included file. `inside` tells whether a function definition is open. -/
def expandList (files : FileTree) (nested : List Command → Bool → Stage Expansion) :
    List Command → (inside : Bool) → Stage Expansion
  | [], inside => return ([], inside)
  | c :: cmds, inside =>
    if c.name = ascii "FUNCTION" then do
      let (rest, inside) ← expandList files nested cmds true
      return (c :: rest, inside)
    else if c.name = ascii "ENDFUNCTION" then do
      let (rest, inside) ← expandList files nested cmds false
      return (c :: rest, inside)
    else if c.name = ascii "INCLUDE" && !inside then do
      let (path, content) ← Stage.ofResult (c.blame (open? files c))
      Stage.note (.included path)
      let (included, inside) ← nested ((commandsOf path content).map (·.broughtBy c)) inside
      let (rest, inside) ← expandList files nested cmds inside
      return (included ++ rest, inside)
    else do
      let (rest, inside) ← expandList files nested cmds inside
      return (c :: rest, inside)

/-- Works in the includes of a list of commands to a depth; those deeper than that are left in
place. -/
def expandWithin (files : FileTree) : (depth : Nat) → List Command → Bool → Stage Expansion
  | 0 => expandList files fun cmds inside => return (cmds, inside)
  | depth + 1 => expandList files (expandWithin files depth)

/-- Works in all includes. Files on the way to a command differ, so their number bounds the
depth. -/
def expand (files : FileTree) (cmds : List Command) : Stage (List Command) := do
  let (cmds, _) ← expandWithin files files.files.length cmds false
  return cmds

end CheatScript.Include
