import CheatScript.Assembly

/-!
# The assembler

An assembler is used for one asm scope after the other. It holds the labels, the variables and the
listing of its last scope, and a fault leaves them as far as they were filled. What it holds is
cleared when the next scope begins.
-/

namespace CheatScript

/-- A task on a state: it gives a value or ends with a failure, and leaves the state as it has
changed it up to there. -/
def Task (σ α : Type) : Type := σ → Except Failure α × σ

namespace Task

variable {σ α β : Type}

/-- A task that gives a value. -/
def give (a : α) : Task σ α := fun s => (.ok a, s)

/-- One task after the other; a failure ends it, and what was changed before stays changed. -/
def andThen (x : Task σ α) (next : α → Task σ β) : Task σ β := fun s => match x s with
  | (.error f, s) => (.error f, s)
  | (.ok a, s) => next a s

instance : Monad (Task σ) where
  pure := give
  bind := andThen

/-- A task that leaves the state as it is. -/
def ofResult (r : Except Failure α) : Task σ α := fun s => (r, s)

/-- Reads a part of the state. -/
def read (part : σ → α) : Task σ α := fun s => (.ok (part s), s)

/-- Changes the state. -/
def change (f : σ → σ) : Task σ Unit := fun s => (.ok (), f s)

end Task

/-- An assembler. -/
structure Assembler where
  /-- Whether it keeps a listing. -/
  listingMode : Bool := false
  /-- The labels of the scope. -/
  labels : Assembly.Labels := []
  /-- The variables that operands may name. -/
  definitions : DefinitionTable := {}
  /-- The listing of the scope. -/
  listing : List Assembly.ListingLine := []

namespace Assembler

open Assembly

/-! ## The first pass -/

/-- Notes a label before the instructions to come. `code` are the instructions so far. -/
def define (code : List Command) (c : Command) : Task Assembler Unit := do
  let labels ← Task.read Assembler.labels
  let x ← Task.ofResult (Expanded.define ⟨labels, code⟩ c)
  Task.change fun a => { a with labels := x.labels }

/-- Adds the instructions of a line to those so far. -/
def emit (code : List Command) (c : Command) : Task Assembler (List Command) := do
  let t ← Task.read Assembler.definitions
  let new ← Task.ofResult (instructionsOf t c)
  return code ++ new

/-- Adds a line with the given name and arguments. What follows a label on its line is a line of its
own. -/
def addLine (c : Command) :
    (code : List Command) → (name : Bytes) → (args : List Bytes) → Task Assembler (List Command)
  | code, name, [] =>
    if isLabel name then do
      define code (c.withParts name [])
      return code
    else emit code (c.withParts name [])
  | code, name, a :: args =>
    if isLabel name then do
      define code (c.withParts name (a :: args))
      addLine c code (Bytes.upper a) args
    else emit code (c.withParts name (a :: args))

/-- Adds lines to the instructions so far. -/
def addLines : (code : List Command) → List Command → Task Assembler (List Command)
  | code, [] => return code
  | code, c :: cmds => do
    let code ← addLine c code c.name c.args
    addLines code cmds

/-! ## The second pass -/

/-- Adds a line to the listing, if one is kept. -/
def addListing (a : Assembler) (l : ListingLine) : Assembler :=
  if a.listingMode then { a with listing := a.listing ++ [l] } else a

/-- Encodes the instructions from `index` on. -/
def encodeFrom (base : Word) : (index : Nat) → List Command → Task Assembler (List Word)
  | _, [] => return []
  | index, c :: cmds => do
    let labels ← Task.read Assembler.labels
    let word ← Task.ofResult (encode labels index c)
    Task.change (·.addListing ⟨base + BitVec.ofNat 32 (4 * index), word, sourceText c⟩)
    let words ← encodeFrom base (index + 1) cmds
    return word :: words

/-! ## Scopes -/

/-- The assembler at the beginning of a scope. -/
def begin (t : DefinitionTable) (a : Assembler) : Assembler :=
  { a with labels := [], definitions := t, listing := [] }

/-- Assembles the lines of a scope at an address. -/
def assemble (t : DefinitionTable) (base : Word) (cmds : List Command) :
    Task Assembler (List Word) := do
  Task.change (begin t)
  let code ← addLines [] cmds
  encodeFrom base 0 code

/-- A scope to be assembled. -/
structure Job where
  /-- Whether a listing is wanted. -/
  listing : Bool
  /-- The variables that operands may name. -/
  definitions : DefinitionTable
  /-- The address of the first word. -/
  base : Word
  /-- The lines. -/
  commands : List Command

/-- What a job comes to. -/
structure Report where
  /-- The words, or the first fault. -/
  words : Except Failure (List Word)
  /-- The listing. -/
  listing : List ListingLine

/-- Does a job and reports on it. -/
def run (a : Assembler) (job : Job) : Report × Assembler :=
  let (words, a) :=
    assemble job.definitions job.base job.commands { a with listingMode := job.listing }
  (⟨words, a.listing⟩, a)

/-- Does one job after the other. -/
def runAll : Assembler → List Job → List Report
  | _, [] => []
  | a, job :: jobs =>
    let (report, a) := a.run job
    report :: runAll a jobs

end Assembler

end CheatScript
