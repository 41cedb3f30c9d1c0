import CheatScript.Instruction.Kind
import CheatScript.Instruction.Layout
import CheatScript.Instruction.Register
import CheatScript.LittleEndian

/-!
# Disassembly

The text of an instruction word. Loads and stores are written `rt,offset(base)`, branches and jumps
with the absolute address they lead to. A word that no row of the table accepts is shown as data.
-/

namespace CheatScript

/-- A word at an address, read as an instruction if the table has one for it. -/
structure Decoded where
  /-- The address of the word. -/
  pc : Word
  /-- The word. -/
  word : Word
  /-- The row of the table that accepts the word. -/
  instruction : Option Instruction
  /-- The fields the row uses. -/
  fields : Fields

/-- Reads a word at an address. -/
def decode (word pc : Word) : Decoded :=
  match Instruction.ofWord? word with
  | some e => ⟨pc, word, some e, e.unpack word⟩
  | none => ⟨pc, word, none, {}⟩

namespace Disassembly

/-- A signed number in hexadecimal. -/
def signedHex (v : Int) : Bytes := match v with
  | .ofNat n => ascii "0x" ++ Hex.natural n
  | .negSucc n => ascii "-0x" ++ Hex.natural (n + 1)

/-- The letters of a destination mask. -/
def destLetters (dest : BitVec 4) : Bytes :=
  [(3, 0x78), (2, 0x79), (1, 0x7A), (0, 0x77)].filterMap fun (i, letter) =>
    if dest.getLsbD i then some letter else none

/-- The address a branch or jump at `pc` leads to. -/
def branchTarget (family : Family) (pc imm : Word) : Word :=
  if family = .jump then ((pc + 4) &&& 0xF0000000#32) ||| (imm <<< 2) else pc + 4 + imm * 4

/-- The text of one operand. -/
def operandText (e : Instruction) (pc : Word) (f : Fields) (o : Operand) : Bytes := match o with
  | .shift => Decimal.natural f.sa.toNat
  | .imm5 => ascii "0x" ++ Hex.natural f.rd.toNat
  | .imm =>
    if e.mnemonic ∈ Instruction.signedImmediates then signedHex f.imm.toInt
    else ascii "0x" ++ Hex.natural (f.imm.setWidth 16).toNat
  | .label => ascii "0x" ++ Hex.word (branchTarget e.family pc f.imm)
  | o => match o.register? with
    | some (file, s) => file.nameOf (f.slot s)
    | none => []

/-- The mnemonic in lower case with its suffix. -/
def mnemonicText (e : Instruction) (f : Fields) : Bytes :=
  let name := Bytes.lower e.mnemonic
  if e.family = .cop2 && f.interlock != 0 then name ++ ascii ".i"
  else if e.family.hasSuffix && f.dest != 0 then name ++ ascii "." ++ destLetters f.dest
  else name

/-- The text of an instruction with its fields. -/
def instructionText (e : Instruction) (pc : Word) (f : Fields) : Bytes :=
  let name := mnemonicText e f
  let text := operandText e pc f
  match e.operands with
  | [] => name
  | [target, .imm, base] =>
    if e.mnemonic ∈ Instruction.loadStores then
      name ++ ascii " " ++ text target ++ ascii "," ++ signedHex f.imm.toInt ++ ascii "(" ++
        text base ++ ascii ")"
    else name ++ ascii " " ++ Bytes.join (ascii ",") ([target, .imm, base].map text)
  | operands => name ++ ascii " " ++ Bytes.join (ascii ",") (operands.map text)

/-- The assembler text of a decoded word. -/
def text (d : Decoded) : Bytes :=
  if d.word = 0 then ascii "nop"
  else match d.instruction with
    | none => ascii ".word 0x" ++ Hex.word d.word ++ ascii "  ; unknown"
    | some e => instructionText e d.pc d.fields

/-- The line of one word: its address, its digits and its text. -/
def wordLine (word pc : Word) : Bytes :=
  Hex.word pc ++ ascii ": " ++ Hex.word word ++ ascii "    " ++ text (decode word pc)

/-- The line of one to three bytes that make no word. -/
def trailingLine (rest : Bytes) (pc : Word) : Bytes :=
  let pairs := rest.map fun b => Hex.fixed 2 b.toNat
  let digits := pairs.flatten
  Hex.word pc ++ ascii ": " ++ digits ++ List.replicate (8 - digits.length) Byte.space
    ++ ascii "    .byte 0x" ++ Bytes.join (ascii ",0x") pairs ++ ascii "  ; trailing bytes"

/-- One line for each word of a memory image, and one for the bytes left over. -/
def lines : (image : Bytes) → (pc : Word) → List Bytes
  | [], _ => []
  | a :: b :: c :: d :: rest, pc => wordLine (LittleEndian.word a b c d) pc :: lines rest (pc + 4)
  | rest, pc => [trailingLine rest pc]

end Disassembly

end CheatScript
