import CheatScript.Assembly.Encoding

/-!
# Assembly

Assembles the lines of an asm scope into one word for each instruction. The listing shows every word
with its address and the instruction that produced it. Labels belong to their scope.
-/

namespace CheatScript.Assembly

/-- One assembled word. -/
structure ListingLine where
  /-- The address of the word. -/
  address : Word
  /-- The word. -/
  word : Word
  /-- The instruction as assembler text. -/
  source : Bytes
  deriving DecidableEq, Repr

/-- The text of a listing line. -/
def ListingLine.text (l : ListingLine) : Bytes :=
  Hex.word l.address ++ ascii "  " ++ Hex.word l.word ++ ascii "  " ++ l.source

/-- An instruction as assembler text. -/
def sourceText (c : Command) : Bytes :=
  if c.args.isEmpty then Bytes.lower c.name
  else Bytes.lower c.name ++ ascii " " ++ c.args.flatten

/-- What assembling a scope gives: the words up to the first fault. -/
structure Outcome where
  /-- The words in order. -/
  listing : List ListingLine
  /-- The first fault. -/
  failure : Option Failure

/-- The words of a scope without fault. -/
def Outcome.words (o : Outcome) : Except Failure (List Word) := match o.failure with
  | some f => .error f
  | none => .ok (o.listing.map (·.word))

/-- Encodes the instructions from `index` on, up to the first one at fault. -/
def encodeFrom (labels : Labels) (base : Word) : (index : Nat) → List Command → Outcome
  | _, [] => ⟨[], none⟩
  | index, c :: cmds => match encode labels index c with
    | .error f => ⟨[], some f⟩
    | .ok word =>
      let rest := encodeFrom labels base (index + 1) cmds
      { rest with
        listing := ⟨base + BitVec.ofNat 32 (4 * index), word, sourceText c⟩ :: rest.listing }

/-- Assembles the lines of a scope at an address. -/
def assemble (t : DefinitionTable) (base : Word) (cmds : List Command) : Outcome :=
  match Expanded.ofCommands t cmds with
  | .error f => ⟨[], some f⟩
  | .ok x => encodeFrom x.labels base 0 x.code

end CheatScript.Assembly
