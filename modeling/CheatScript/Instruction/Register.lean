import CheatScript.Instruction.Operand
import CheatScript.Text.Numeral

/-!
# Register names

General registers go by their names in the calling convention, the others by a letter and a number.
Names are in lower case. In sources the `$` may be left out, and a number below ten may have a zero
in front.
-/

namespace CheatScript

namespace RegisterFile

/-- The names of the general registers in the order of their numbers. -/
def generalNames : List Bytes :=
  ["zero", "at", "v0", "v1", "a0", "a1", "a2", "a3", "t0", "t1", "t2", "t3", "t4", "t5", "t6", "t7",
   "s0", "s1", "s2", "s3", "s4", "s5", "s6", "s7", "t8", "t9", "k0", "k1", "gp", "sp", "fp",
   "ra"].map ascii

/-- The letters in front of a register number. -/
def letters : RegisterFile → Bytes
  | .general => []
  | .float => ascii "f"
  | .vector => ascii "vf"
  | .integer => ascii "vi"

/-- The number of registers in a file. -/
def size : RegisterFile → Nat
  | .integer => 16
  | _ => 32

/-- The number of the register in a numbered file with a name. -/
def numbered? (file : RegisterFile) (name : Bytes) : Option Nat :=
  match Bytes.after? file.letters name with
  | none => none
  | some digits =>
    (List.range file.size).find? fun n =>
      digits == Decimal.natural n || (n < 10 && digits == 0x30 :: Decimal.natural n)

/-- The register of a file with a name, with or without its `$`. -/
def find? (file : RegisterFile) (name : Bytes) : Option (BitVec 5) :=
  let bare := Bytes.dropLead [Byte.dollar] name
  let number := match file with
    | .general => generalNames.idxOf? bare
    | _ => file.numbered? bare
  number.map (BitVec.ofNat 5)

/-- The name of a register, with its `$`. -/
def nameOf (file : RegisterFile) (r : BitVec 5) : Bytes :=
  Byte.dollar :: (match file with
    | .general => (generalNames[r.toNat]?).getD []
    | _ => file.letters ++ Decimal.natural r.toNat)

end RegisterFile

end CheatScript
