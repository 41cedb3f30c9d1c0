import CheatScript.Assembler
import CheatScript.Compile

/-!
# The compiler

A compiler is used for one script after the other. It holds what it knows of the script: the
functions and the variables found, the encoding chosen last, the files read and the listing. A
script that fails leaves them as far as they were filled. All of it is cleared when the next script
begins, but for what the assembler holds.
-/

namespace CheatScript

/-- The choices that stay the same from script to script. -/
structure CompilerOptions where
  /-- The form of the codes. -/
  form : OutputForm := {}
  /-- Whether a listing of the asm scopes is kept. -/
  listing : Bool := false
  deriving DecidableEq, Repr

/-- What the commands of a script have set up. -/
structure ScriptState where
  /-- The functions. -/
  functions : List Function := []
  /-- The variables. -/
  definitions : DefinitionTable := {}
  /-- How strings are stored. -/
  encoding : TextEncoding := .utf8

/-- A compiler. -/
structure Compiler extends ScriptState where
  /-- The choices it was made with. -/
  options : CompilerOptions
  /-- The assembler of its asm scopes. -/
  assembler : Assembler
  /-- The files that were read, each once. -/
  files : List Bytes := []
  /-- The listing of the asm scopes that were assembled. -/
  listing : List Assembly.ListingLine := []

namespace Compiler

/-- A new compiler. -/
def new (o : CompilerOptions) : Compiler :=
  { options := o, assembler := { listingMode := o.listing } }

/-- The compiler at the beginning of a script. -/
def reset (c : Compiler) : Compiler :=
  { c with functions := [], definitions := {}, encoding := .utf8, files := [], listing := [] }

/-- Adds a path to a list in which each stands once. -/
def addPath (paths : List Bytes) (path : Bytes) : List Bytes :=
  if path ∈ paths then paths else paths ++ [path]

/-- Notes a file that was read. -/
def addFile (c : Compiler) (path : Bytes) : Compiler := { c with files := addPath c.files path }

/-! ## Includes -/

/-- The commands of the file that an Include names. -/
def openInclude (tree : FileTree) (cmd : Command) : Task Compiler (List Command) := do
  let (path, content) ← Task.ofResult (cmd.blame (Include.open? tree cmd))
  Task.change (·.addFile path)
  return (Include.commandsOf path content).map (·.broughtBy cmd)

/-- Works in the includes of a list of commands, where `nested` does so for the commands of an
included file. `inside` tells whether a function definition is open. -/
def expandList (tree : FileTree)
    (nested : List Command → Bool → Task Compiler Include.Expansion) :
    List Command → (inside : Bool) → Task Compiler Include.Expansion
  | [], inside => return ([], inside)
  | cmd :: cmds, inside =>
    if cmd.name = ascii "FUNCTION" then do
      let (rest, inside) ← expandList tree nested cmds true
      return (cmd :: rest, inside)
    else if cmd.name = ascii "ENDFUNCTION" then do
      let (rest, inside) ← expandList tree nested cmds false
      return (cmd :: rest, inside)
    else if cmd.name = ascii "INCLUDE" && !inside then do
      let opened ← openInclude tree cmd
      let (included, inside) ← nested opened inside
      let (rest, inside) ← expandList tree nested cmds inside
      return (included ++ rest, inside)
    else do
      let (rest, inside) ← expandList tree nested cmds inside
      return (cmd :: rest, inside)

/-- Works in the includes of a list of commands to a depth; those deeper than that are left in
place. -/
def expandWithin (tree : FileTree) :
    (depth : Nat) → List Command → Bool → Task Compiler Include.Expansion
  | 0 => expandList tree fun cmds inside => return (cmds, inside)
  | depth + 1 => expandList tree (expandWithin tree depth)

/-- Works in all includes. -/
def expandIncludes (tree : FileTree) (cmds : List Command) : Task Compiler (List Command) := do
  let (cmds, _) ← expandWithin tree tree.files.length cmds false
  return cmds

/-! ## Functions and calls -/

/-- Notes a function, still without body. -/
def addFunction (c : Compiler) (f : Function) : Compiler :=
  { c with functions := c.functions ++ [f] }

/-- Adds a command to the body of the last function. -/
def addToBody (c : Compiler) (cmd : Command) : Compiler :=
  { c with
    functions := c.functions.dropLast
      ++ c.functions.getLast?.toList.map fun f => { f with body := f.body ++ [cmd] } }

/-- Takes the function definitions out of a list of commands. `inside` tells whether one is open. -/
def extractFrom : (inside : Bool) → List Command → Task Compiler (List Command)
  | _, [] => return []
  | false, cmd :: cmds =>
    if cmd.name = ascii "ENDFUNCTION" then Task.ofResult (cmd.refuse .missFunction)
    else if cmd.name = ascii "FUNCTION" then do
      let functions ← Task.read fun c : Compiler => c.functions
      let f ← Task.ofResult (cmd.blame (Function.start functions cmd cmds))
      Task.change (·.addFunction f)
      extractFrom true cmds
    else do
      let rest ← extractFrom false cmds
      return cmd :: rest
  | true, cmd :: cmds =>
    if cmd.name = ascii "ENDFUNCTION" then extractFrom false cmds
    else if cmd.name = ascii "FUNCTION" then Task.ofResult (cmd.refuse .functionInsideFunction)
    else if cmd.name = ascii "INCLUDE" then Task.ofResult (cmd.refuse .includeInsideFunction)
    else do
      Task.change (·.addToBody cmd)
      extractFrom true cmds

/-- Works in all calls. -/
def expandCalls (cmds : List Command) : Task Compiler (List Command) := do
  let functions ← Task.read fun c : Compiler => c.functions
  Task.ofResult (Call.expand functions cmds)

/-! ## Variables -/

/-- Notes a definition of a variable. -/
def addDefinition (c : Compiler) (d : Definition) : Compiler :=
  { c with definitions := c.definitions.add d }

/-- Takes the definitions of variables out of a list of commands. -/
def collect : List Command → Task Compiler (List Command)
  | [] => return []
  | cmd :: cmds =>
    if cmd.name = ascii "SET" then do
      let d ← Task.ofResult (DefinitionTable.ofCommand cmd)
      Task.change (·.addDefinition d)
      collect cmds
    else do
      let rest ← collect cmds
      return cmd :: rest

/-- Works the definitions of variables in the commands after them. -/
def defineAll (cmds : List Command) : Task Compiler (List Command) := do
  let rest ← collect cmds
  let t ← Task.read fun c : Compiler => c.definitions
  Task.ofResult (t.substituteAll rest)

/-- The flat list of commands of a script. -/
def flatten (tree : FileTree) (cmds : List Command) : Task Compiler (List Command) := do
  let cmds ← expandIncludes tree cmds
  let cmds ← extractFrom false cmds
  let cmds ← expandCalls cmds
  defineAll cmds

/-! ## Rendering -/

/-- Has the assembler assemble the lines of a scope. -/
def assemble (base : Word) (lines : List Command) : Task Compiler (List Word) := fun c =>
  let (words, a) := Assembler.assemble c.definitions base lines c.assembler
  (words, { c with assembler := a })

/-- Takes over the listing of the scope assembled last. -/
def keepListing (c : Compiler) : Compiler := { c with listing := c.listing ++ c.assembler.listing }

/-- Assembles the scope that a command closes. -/
def close (s : AsmScope) (cmd : Command) : Task Compiler (List Code) :=
  if cmd.args.isEmpty then do
    let words ← assemble s.place s.lines
    Task.change keepListing
    return Code.ofWords s.place words
  else Task.ofResult (cmd.refuse .wrongSyntax)

/-- The pieces of a list of commands, in the asm scope that is open. -/
def renderFrom [TextEncoder] : Option AsmScope → List Command → Task Compiler (List Piece)
  | none, [] => return []
  | some s, [] => Task.ofResult (s.last.refuse .missAsmEnd)
  | some s, cmd :: cmds =>
    if cmd.name = ascii "ASM_END" then do
      let codes ← close s cmd
      let pieces ← renderFrom none cmds
      return .output cmd (.codes codes) :: pieces
    else renderFrom (some (s.add cmd)) cmds
  | none, cmd :: cmds =>
    if cmd.name = ascii "ASM_START" then do
      let s ← Task.ofResult (cmd.blame (AsmScope.ofCommand cmd))
      renderFrom (some s) cmds
    else do
      let encoding ← Task.read fun c : Compiler => c.encoding
      match ← Task.ofResult (Statement.ofCommand encoding cmd) with
      | .encoding e =>
        Task.change fun c => { c with encoding := e }
        renderFrom none cmds
      | .emit f =>
        let pieces ← renderFrom none cmds
        return .output cmd f :: pieces
      | .openIf condition =>
        let pieces ← renderFrom none cmds
        return .test cmd condition :: pieces
      | .closeIf =>
        let pieces ← renderFrom none cmds
        return .close :: pieces

/-! ## Scripts -/

/-- The packed codes of a list of commands. -/
def packed [TextEncoder] (tree : FileTree) (cmds : List Command) :
    Task Compiler (List Packed) := do
  let cmds ← flatten tree cmds
  let pieces ← renderFrom none cmds
  Task.ofResult (Scope.pack pieces)

/-- Compiles the lines of a script with a path. -/
def compile [TextEncoder] (tree : FileTree) (path : Bytes) (lines : List Bytes) :
    Task Compiler Bytes :=
  match Source.commands path (Source.cleanUp lines) with
  | [] => return []
  | cmds => do
    let codes ← packed tree cmds
    let o ← Task.read Compiler.options
    return Compile.text o.form codes

/-- A script to be compiled. -/
inductive Request
  /-- Lines that are at hand, and the path that names them. -/
  | lines (path : Bytes) (lines : List Bytes)
  /-- The file with a path. -/
  | file (path : Bytes)
  deriving DecidableEq, Repr

/-- Why a script gives no codes. -/
inductive Refusal
  /-- The file of the script cannot be read. -/
  | unreadable (path : Bytes) (e : FileError)
  /-- The script is at fault. -/
  | faulty (f : Failure)

/-- What a request comes to. -/
structure Answer where
  /-- The text of the codes, or why there are none. -/
  result : Except Refusal Bytes
  /-- The files that were read, sorted. -/
  files : List Bytes
  /-- The listing. -/
  listing : List Assembly.ListingLine

/-- Compiles the script of a request. -/
def serve [TextEncoder] (tree : FileTree) (c : Compiler) :
    Request → Except Refusal Bytes × Compiler
  | .lines path lines =>
    let (result, c) := compile tree path lines c.reset
    (result.mapError Refusal.faulty, c)
  | .file path => match tree.read path with
    | .error e => (.error (.unreadable path e), c.reset)
    | .ok content =>
      let (result, c) := compile tree path (Source.linesOf content) (c.reset.addFile path)
      (result.mapError Refusal.faulty, c)

/-- Answers a request. -/
def answer [TextEncoder] (tree : FileTree) (c : Compiler) (r : Request) : Answer × Compiler :=
  let (result, c) := c.serve tree r
  (⟨result, c.files.mergeSort Bytes.precedes, c.listing⟩, c)

/-- Answers one request after the other. -/
def answerAll [TextEncoder] (tree : FileTree) : Compiler → List Request → List Answer
  | _, [] => []
  | c, r :: requests =>
    let (a, c) := c.answer tree r
    a :: answerAll tree c requests

end Compiler

end CheatScript
