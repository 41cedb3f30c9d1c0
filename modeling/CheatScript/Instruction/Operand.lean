import CheatScript.Text.Byte

/-!
# Operands and families

An instruction is packed into a word by the layout of its family, and its operands say which fields
of the word they fill. The EE has four register files; an operand that names a register fills one of
three register fields.
-/

namespace CheatScript

/-- The role of one instruction operand. -/
inductive Operand
  /-- A general register in the field `rs`. -/
  | rs
  /-- A general register in the field `rt`. -/
  | rt
  /-- A general register in the field `rd`. -/
  | rd
  /-- A float register in the field `rs`. -/
  | fs
  /-- A float register in the field `rt`. -/
  | ft
  /-- A float register in the field `rd`. -/
  | fd
  /-- A vector register in the field `rs`. -/
  | vfs
  /-- A vector register in the field `rt`. -/
  | vft
  /-- A vector register in the field `rd`. -/
  | vfd
  /-- A vector unit integer register in the field `rs`. -/
  | vis
  /-- A vector unit integer register in the field `rt`. -/
  | vit
  /-- A vector unit integer register in the field `rd`. -/
  | vid
  /-- A shift amount. -/
  | shift
  /-- A 16-bit immediate. -/
  | imm
  /-- A 5-bit immediate in the field `rd`. -/
  | imm5
  /-- A branch label or a jump target. -/
  | label
  deriving DecidableEq, Repr

/-- The operand roles in the order of their numbers, which start at one. -/
def Operand.all : List Operand :=
  [.rs, .rt, .rd, .fs, .ft, .fd, .vfs, .vft, .vfd, .vis, .vit, .vid, .shift, .imm, .imm5, .label]

/-- The number of an operand role. -/
def Operand.code (o : Operand) : Nat := Operand.all.idxOf o + 1

/-- A register file. -/
inductive RegisterFile
  /-- The 32 general registers. -/
  | general
  /-- The 32 float registers. -/
  | float
  /-- The 32 vector registers. -/
  | vector
  /-- The 16 integer registers of the vector unit. -/
  | integer
  deriving DecidableEq, Repr

/-- A register field of an instruction word. -/
inductive Slot
  /-- The first source. -/
  | rs
  /-- The second source, or the target of an immediate instruction. -/
  | rt
  /-- The destination. -/
  | rd
  deriving DecidableEq, Repr

/-- The register file and the field of an operand that names a register. -/
def Operand.register? : Operand → Option (RegisterFile × Slot)
  | .rs => some (.general, .rs)
  | .rt => some (.general, .rt)
  | .rd => some (.general, .rd)
  | .fs => some (.float, .rs)
  | .ft => some (.float, .rt)
  | .fd => some (.float, .rd)
  | .vfs => some (.vector, .rs)
  | .vft => some (.vector, .rt)
  | .vfd => some (.vector, .rd)
  | .vis => some (.integer, .rs)
  | .vit => some (.integer, .rt)
  | .vid => some (.integer, .rd)
  | .shift | .imm | .imm5 | .label => none

/-- The layout an instruction is packed with. -/
inductive Family
  /-- Opcode, two registers and an immediate. -/
  | normal
  /-- Opcode and a jump target. -/
  | jump
  /-- Three registers, a shift amount and a function. -/
  | special
  /-- A register, a branch kind and an immediate. -/
  | regImm
  /-- Multimedia instructions with a function of their own. -/
  | mmi
  /-- The first multimedia sub-table. -/
  | mmi0
  /-- The second multimedia sub-table. -/
  | mmi1
  /-- The third multimedia sub-table. -/
  | mmi2
  /-- The fourth multimedia sub-table. -/
  | mmi3
  /-- Parallel moves from the product registers. -/
  | pmfhl
  /-- Parallel moves to the product registers. -/
  | pmthl
  /-- Single-precision arithmetic. -/
  | fpuS
  /-- Conversion from words to single precision. -/
  | fpuW
  /-- Branches on the system coprocessor. -/
  | bc0
  /-- Branches on the float coprocessor. -/
  | bc1
  /-- Moves to and from the system coprocessor. -/
  | cop0
  /-- Moves to and from the float coprocessor. -/
  | cop1
  /-- Moves to and from the vector unit. -/
  | cop2
  /-- Vector arithmetic with a destination register. -/
  | cop2Special1
  /-- Vector arithmetic without a destination register. -/
  | cop2Special2
  /-- Memory management and exceptions. -/
  | tlbException
  deriving DecidableEq, Repr

namespace Family

/-- The families in the order of their numbers. -/
def all : List Family :=
  [.normal, .jump, .special, .regImm, .mmi, .mmi0, .mmi1, .mmi2, .mmi3, .pmfhl, .pmthl,
   .fpuS, .fpuW, .bc0, .bc1, .cop0, .cop1, .cop2, .cop2Special1, .cop2Special2, .tlbException]

/-- The name of a family. -/
def name : Family → Bytes
  | .normal => ascii "Normal"
  | .jump => ascii "Jump"
  | .special => ascii "Special"
  | .regImm => ascii "REGIMM"
  | .mmi => ascii "MMI"
  | .mmi0 => ascii "MMI0"
  | .mmi1 => ascii "MMI1"
  | .mmi2 => ascii "MMI2"
  | .mmi3 => ascii "MMI3"
  | .pmfhl => ascii "PMFHL"
  | .pmthl => ascii "PMTHL"
  | .fpuS => ascii "FPU.S"
  | .fpuW => ascii "FPU.W"
  | .bc0 => ascii "BC0"
  | .bc1 => ascii "BC1"
  | .cop0 => ascii "COP0"
  | .cop1 => ascii "COP1"
  | .cop2 => ascii "COP2"
  | .cop2Special1 => ascii "COP2Special1"
  | .cop2Special2 => ascii "COP2Special2"
  | .tlbException => ascii "TLBException"

/-- The name of the family with a number; numbers past the list have a name of their own. -/
def nameOfCode (code : Nat) : Bytes := match all[code]? with
  | some f => f.name
  | none => ascii "Family?"

/-- Whether the layout has a destination mask. -/
def hasDest (f : Family) : Bool := f == .cop2Special1 || f == .cop2Special2

/-- Whether mnemonics of the family may carry a suffix after a full stop: a destination mask or the
interlock letter. -/
def hasSuffix (f : Family) : Bool := f == .cop2 || f.hasDest

end Family

end CheatScript
