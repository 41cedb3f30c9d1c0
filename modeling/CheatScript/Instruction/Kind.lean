import CheatScript.Text.Bytes

/-!
# Kinds of mnemonic

Sets of mnemonics that the assembler and the disassembler treat alike.
-/

namespace CheatScript.Instruction

/-- Instructions that accept `rd,rt` for `rd,rd,rt`. -/
def twoOperandForms : List Bytes :=
  ["ADDI", "ADDIU", "SLTI", "SLTIU", "ANDI", "ORI", "XORI", "DADDI", "DADDIU", "SLL", "SRL", "SRA",
   "SLLV", "SRAV", "DSRAV", "ADD", "ADDU", "SUB", "SUBU", "AND", "OR", "XOR", "NOR", "SLT", "SLTU",
   "DSLL", "DSRL", "DSRA", "DSLL32", "DSRL32", "DSRA32", "MADD", "MADDU", "MULT1", "MULTU1",
   "MADD1", "MADDU1", "PADDW", "PSUBW", "PCGTW", "PMAXW", "PADDH", "PSUBH", "PCGTH", "PMAXH",
   "PADDB", "PSUBB", "PCGTB", "PADDSW", "PSUBSW", "PEXTLW", "PPACW", "PADDSH", "PSUBSH", "PEXTLH",
   "PPACH", "PADDSB", "PSUBSB", "PEXTLB", "PPACB", "PCEQW", "PMINW", "PADSBH", "PCEQH", "PMINH",
   "PCEQB", "PADDUW", "PSUBUW", "PEXTUW", "PADDUH", "PSUBUH", "PEXTUH", "PADDUB", "PSUBUB",
   "PEXTUB", "QFSRV", "PMADDW", "PSLLVW", "PSRLVW", "PMSUBW", "PINTH", "PMULTW", "PCPYLD", "PMADDH",
   "PHMADH", "PAND", "PXOR", "PMSUBH", "PHMSBH", "PMULTH", "PMADDUW", "PSRAVW", "PINTEH", "PMULTUW",
   "PCPYUD", "POR", "PNOR",
   "ADD.S", "SUB.S", "MUL.S", "DIV.S", "MADD.S", "MSUB.S", "DADDU"].map ascii

/-- Variable shifts that accept `rd,rs` for `rd,$zero,rs`. -/
def shiftForms : List Bytes := ["DSLLV", "DSRLV"].map ascii

/-- Instructions that take `rt,offset(base)` and also a bare 32-bit address. -/
def loadStores : List Bytes :=
  ["LB", "LBU", "LD", "LDL", "LDR", "LH", "LHU", "LW", "LWL", "LWR", "LWU", "LQ", "LWC1",
   "SB", "SD", "SDL", "SDR", "SH", "SW", "SWL", "SWR", "SQ", "SWC1", "LQC2", "SQC2"].map ascii

/-- The loads and stores whose register cannot hold the upper half of an address, so `$at` does. -/
def viaAt : List Bytes := ["LWC1", "SWC1", "LQC2", "SQC2"].map ascii

/-- The instructions whose immediate is shown with its sign; others show it as 16 bits. -/
def signedImmediates : List Bytes :=
  ["ADDI", "ADDIU", "DADDI", "DADDIU", "SLTI", "SLTIU"].map ascii

end CheatScript.Instruction
