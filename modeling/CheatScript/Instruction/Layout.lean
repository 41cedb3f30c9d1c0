import CheatScript.Instruction.Table
import CheatScript.Text.Numeral

/-!
# Instruction words

`Instruction.pack` lays the fields of an instruction out as one word and `Instruction.unpack` reads
them back. Each layout is written as the concatenation of its bit fields from the top bit down.
Fields that no operand of an instruction fills are zero, and `unpack` reads only the fields that are
filled.
-/

namespace CheatScript

/-- The fields of an instruction word. -/
structure Fields where
  /-- First source register. -/
  rs : BitVec 5 := 0
  /-- Second source register, or the target of an immediate instruction. -/
  rt : BitVec 5 := 0
  /-- Destination register, or a 5-bit immediate. -/
  rd : BitVec 5 := 0
  /-- Shift amount. -/
  sa : BitVec 5 := 0
  /-- Immediate, branch distance in words, or jump target in words. -/
  imm : Word := 0
  /-- Destination mask: one bit each for x, y, z and w from the top down. -/
  dest : BitVec 4 := 0
  /-- Interlock bit. -/
  interlock : BitVec 1 := 0
  deriving DecidableEq, Repr

namespace Fields

/-- The register in a field. -/
def slot (f : Fields) : Slot → BitVec 5
  | .rs => f.rs
  | .rt => f.rt
  | .rd => f.rd

/-- The fields with one register replaced. -/
def setSlot (f : Fields) (s : Slot) (r : BitVec 5) : Fields := match s with
  | .rs => { f with rs := r }
  | .rt => { f with rt := r }
  | .rd => { f with rd := r }

/-- The fields with the ones an operand fills taken from `g`. -/
def fill (f g : Fields) (o : Operand) : Fields := match o with
  | .shift => { f with sa := g.sa }
  | .imm | .label => { f with imm := g.imm }
  | .imm5 => { f with rd := g.rd }
  | o => match o.register? with
    | some (_, s) => f.setSlot s (g.slot s)
    | none => f

end Fields

namespace Instruction

/-- The opcode as a field of a given width. -/
def code (e : Instruction) (width : Nat) : BitVec width := BitVec.ofNat width e.opcode

/-- The function field that selects a multimedia sub-table. -/
def subTable : Family → BitVec 6
  | .mmi0 => 0b001000#6
  | .mmi1 => 0b101000#6
  | .mmi2 => 0b001001#6
  | _ => 0b101001#6

/-- The word of an instruction with the given fields. Families without instructions in the table
have no encoding; their word is zero. -/
def pack (e : Instruction) (f : Fields) : Word :=
  let imm := f.imm.setWidth 16
  match e.family with
  | .normal => e.code 6 ++ f.rs ++ f.rt ++ imm
  | .jump => e.code 6 ++ f.imm.setWidth 26
  | .special => 0b000000#6 ++ f.rs ++ f.rt ++ f.rd ++ f.sa ++ e.code 6
  | .regImm => 0b000001#6 ++ f.rs ++ e.code 5 ++ imm
  | .mmi => 0b011100#6 ++ f.rs ++ f.rt ++ f.rd ++ f.sa ++ e.code 6
  | .mmi0 | .mmi1 | .mmi2 | .mmi3 =>
    0b011100#6 ++ f.rs ++ f.rt ++ f.rd ++ e.code 5 ++ subTable e.family
  | .pmfhl => 0b011100#6 ++ 0#10 ++ f.rd ++ e.code 5 ++ 0b110000#6
  | .pmthl => 0b011100#6 ++ f.rs ++ 0#10 ++ e.code 5 ++ 0b110001#6
  | .fpuS => 0b010001#6 ++ 0b10000#5 ++ f.rt ++ f.rs ++ f.rd ++ e.code 6
  | .fpuW => 0b010001#6 ++ 0b10100#5 ++ 0#5 ++ f.rs ++ f.rd ++ e.code 6
  | .bc1 => 0b010001#6 ++ 0b01000#5 ++ e.code 5 ++ imm
  | .cop1 => 0b010001#6 ++ e.code 5 ++ f.rt ++ f.rs ++ 0#11
  | .cop2 => 0b010010#6 ++ e.code 5 ++ f.rt ++ f.rd ++ 0#10 ++ f.interlock
  | .cop2Special1 => 0b010010#6 ++ 1#1 ++ f.dest ++ f.rt ++ f.rs ++ f.rd ++ e.code 6
  | .cop2Special2 =>
    0b010010#6 ++ 1#1 ++ f.dest ++ f.rt ++ f.rs
      ++ (e.code 7).extractLsb' 2 5 ++ 0b1111#4 ++ (e.code 7).extractLsb' 0 2
  | .bc0 | .cop0 | .tlbException => 0

/-- The fields a word has in a layout, whether or not an operand fills them. -/
def rawFields (family : Family) (w : Word) : Fields where
  rs := match family with
    | .fpuS | .fpuW | .cop1 | .cop2Special1 | .cop2Special2 => w.extractLsb' 11 5
    | _ => w.extractLsb' 21 5
  rt := w.extractLsb' 16 5
  rd := match family with
    | .fpuS | .fpuW | .cop2Special1 => w.extractLsb' 6 5
    | _ => w.extractLsb' 11 5
  sa := w.extractLsb' 6 5
  imm := match family with
    | .jump => (w.extractLsb' 0 26).setWidth 32
    | _ => (w.extractLsb' 0 16).signExtend 32
  dest := w.extractLsb' 21 4
  interlock := w.extractLsb' 0 1

/-- The fields of a word that an instruction uses; the others are zero. -/
def unpack (e : Instruction) (w : Word) : Fields :=
  let raw := rawFields e.family w
  let start : Fields :=
    { dest := if e.family.hasDest then raw.dest else 0
      interlock := if e.family = .cop2 then raw.interlock else 0 }
  e.operands.foldl (fun f o => f.fill raw o) start

/-- Whether a word is one of an instruction: packing the fields it has gives the word back. -/
def accepts (e : Instruction) (w : Word) : Bool := e.pack (e.unpack w) == w

/-- Of two rows that accept a word, the one with more operands; the earlier one if they have as
many. -/
def prefer (best : Option Instruction) (e : Instruction) : Option Instruction := match best with
  | none => some e
  | some b => if b.operands.length < e.operands.length then some e else some b

/-- The row of the table that a word is read as. -/
def ofWord? (w : Word) : Option Instruction := (table.filter (·.accepts w)).foldl prefer none

end Instruction

end CheatScript
