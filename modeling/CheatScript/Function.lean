import CheatScript.Journal
import CheatScript.Text.Identifier

/-!
# Functions

A function is a block of commands with a name and parameters. Definitions are taken out of the
script before calls are worked in.
-/

namespace CheatScript

/-- A function of a script. -/
structure Function where
  /-- The name. -/
  name : Bytes
  /-- The names of the parameters. -/
  parameters : List Bytes
  /-- The commands between the header and the end. -/
  body : List Command := []
  deriving DecidableEq, Repr

namespace Function

/-- The name and the text after it, if the text starts with `lead` in any case, an identifier and an
opening parenthesis. -/
def heading? (lead s : Bytes) : Option (Bytes × Bytes) := do
  let rest ← Bytes.afterFolded? lead s
  let (name, rest) ← Identifier.cut? rest
  let rest ← Bytes.after? [Byte.opening] rest
  return (name, rest)

/-- The name and the parameter list at the start of a text that starts with a function header. -/
def headerAt? (s : Bytes) : Option (Bytes × Bytes) := do
  let (name, rest) ← heading? (ascii "function ") s
  let (list, _) ← Bytes.cut? Byte.closing rest
  return (name, list)

/-- The first function header in a line: its name and its parameter list. -/
def header? : Bytes → Option (Bytes × Bytes)
  | [] => none
  | c :: s => (headerAt? (c :: s)).or (header? s)

/-- The parameters of a parameter list. -/
def parametersOf (list : Bytes) : List Bytes :=
  if list.isEmpty then [] else (Bytes.split Byte.comma list).map Space.trim

/-- The function that a header introduces, still without body. -/
def ofHeader (c : Command) : Except Fault Function :=
  if c.args.isEmpty then .error .wrongSyntax
  else match header? c.text with
    | none => .error .wrongSyntax
    | some (name, list) => .ok { name := name, parameters := parametersOf list }

/-- The function with a name. -/
def find? (functions : List Function) (name : Bytes) : Option Function :=
  functions.find? (·.name == name)

/-! ## Extraction -/

/-- The header of a function, if a definition may start there: the definition is closed later and
its name is new. -/
def start (functions : List Function) (c : Command) (rest : List Command) :
    Except Fault Function :=
  if rest.any (·.name == ascii "ENDFUNCTION") then do
    let f ← ofHeader c
    if (find? functions f.name).isSome then .error .functionAlreadyDefined else return f
  else .error .missEndFunction

/-- Takes the function definitions out of a list of commands. `functions` are the ones taken out
before, and `current` is the one whose definition is open. -/
def extractFrom : (functions : List Function) → (current : Option Function) → List Command →
    Stage (List Function × List Command)
  | functions, _, [] => return (functions, [])
  | functions, none, c :: cmds =>
    if c.name = ascii "ENDFUNCTION" then Stage.ofResult (c.refuse .missFunction)
    else if c.name = ascii "FUNCTION" then do
      let f ← Stage.ofResult (c.blame (start functions c cmds))
      extractFrom functions (some f) cmds
    else do
      let (functions, rest) ← extractFrom functions none cmds
      return (functions, c :: rest)
  | functions, some f, c :: cmds =>
    if c.name = ascii "ENDFUNCTION" then do
      Stage.note (.defined f.name f.parameters f.body.length)
      extractFrom (functions ++ [f]) none cmds
    else if c.name = ascii "FUNCTION" then Stage.ofResult (c.refuse .functionInsideFunction)
    else if c.name = ascii "INCLUDE" then Stage.ofResult (c.refuse .includeInsideFunction)
    else extractFrom functions (some { f with body := f.body ++ [c] }) cmds

/-- The functions of a script and its commands outside of them. -/
def extract (cmds : List Command) : Stage (List Function × List Command) := extractFrom [] none cmds

end Function

end CheatScript
