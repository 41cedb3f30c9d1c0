import CheatScript.Call
import CheatScript.Include
import CheatScript.Patch
import CheatScript.Scope.Packing

/-!
# Compilation

Compiles a script to the text of its codes. Includes, functions, calls and variables are worked in
first, in this order; the flat list of commands that is left is rendered and its scopes are packed.
-/

namespace CheatScript

/-- The form of the compiled codes. -/
structure OutputForm where
  /-- How conditions are written. -/
  conditions : ConditionType := .e
  /-- Whether codes are written as patch lines. -/
  patches : Bool := false
  deriving DecidableEq, Repr

namespace DefinitionTable

/-- The definition of a Set command. -/
def ofCommand (c : Command) : Except Failure Definition := match c.args with
  | name :: value :: values => .ok ⟨name, value :: values, c.position⟩
  | _ => c.refuse .wrongSyntax

/-- The definitions of a list of commands and the other commands in order. -/
def collect (cmds : List Command) : Except Failure (DefinitionTable × List Command) := do
  let sets ← (cmds.filter (·.name == ascii "SET")).mapM ofCommand
  return (ofList sets, cmds.filter (·.name != ascii "SET"))

end DefinitionTable

namespace Compile

/-- Works the definitions of variables in the commands after them. -/
def defineAll (cmds : List Command) : Stage (DefinitionTable × List Command) := do
  let (t, rest) ← Stage.ofResult (DefinitionTable.collect cmds)
  Stage.note (.collected t.size)
  let cmds ← Stage.ofResult (t.substituteAll rest)
  return (t, cmds)

/-- The flat list of commands of a script and the variables it defines. -/
def flatten (files : FileTree) (cmds : List Command) : Stage (DefinitionTable × List Command) := do
  let cmds ← Include.expand files cmds
  let (functions, cmds) ← Function.extract cmds
  let cmds ← Stage.ofResult (Call.expand functions cmds)
  let (t, cmds) ← defineAll cmds
  Stage.note (.flattened cmds.length)
  return (t, cmds)

/-- The packed codes of a list of commands. Conditions are kept as such in them and are written in a
type only by `text`. -/
def packed [TextEncoder] (files : FileTree) (cmds : List Command) : Stage (List Packed) := do
  let (t, cmds) ← flatten files cmds
  let pieces ← render t cmds
  Stage.ofResult (Scope.pack pieces)

/-- The text of packed codes. -/
def text (form : OutputForm) (codes : List Packed) : Bytes :=
  let raw := joinTexts (codes.map (Packed.text form.conditions))
  if form.patches then Patch.ofCodes raw else raw

/-- Compiles the lines of a script. The path names the script in diagnostics, and paths of includes
start from its folder. -/
def lines [TextEncoder] (files : FileTree) (form : OutputForm) (path : Bytes)
    (lines : List Bytes) : Stage Bytes :=
  match Source.commands path (Source.cleanUp lines) with
  | [] => return []
  | cmds => do
    let codes ← packed files cmds
    return text form codes

/-- Compiles the content of the script with a path. -/
def content [TextEncoder] (files : FileTree) (form : OutputForm) (path content : Bytes) :
    Stage Bytes := do
  let source := Source.linesOf content
  Stage.note (.script path source.length)
  lines files form path source

/-- Compiles the script with a path. -/
def script [TextEncoder] (files : FileTree) (form : OutputForm) (path : Bytes) :
    Except FileError (Stage Bytes) :=
  (files.read path).map (content files form path)

end Compile

end CheatScript
