import CheatScript.Instruction.Operand
import CheatScript.Text.Bytes

/-!
# The instruction table

Every mnemonic of the R5900, the EE core, that the assembler accepts: its layout, its opcode and its
operands in source order. The assembler reads the table by mnemonic and the disassembler by word.
Short forms such as `B`, `BEQZ` and `MOVE` share the encoding of a longer one.
-/

namespace CheatScript

/-- One mnemonic of the table. -/
structure Instruction where
  /-- The mnemonic in upper case. -/
  mnemonic : Bytes
  /-- The layout of its word. -/
  family : Family
  /-- The number that tells it from others of its layout. -/
  opcode : Nat
  /-- The operands in source order. -/
  operands : List Operand
  deriving DecidableEq, Repr

namespace Instruction

/-- A row of the table. -/
def entry (mnemonic : String) (family : Family) (opcode : Nat) (operands : List Operand) :
    Instruction :=
  ⟨ascii mnemonic, family, opcode, operands⟩

/-- The instruction table. -/
def table : List Instruction :=
  [entry "ADD" .special 0b100000 [.rd, .rs, .rt],
   entry "ADDI" .normal 0b001000 [.rt, .rs, .imm],
   entry "ADDIU" .normal 0b001001 [.rt, .rs, .imm],
   entry "ADDU" .special 0b100001 [.rd, .rs, .rt],
   entry "AND" .special 0b100100 [.rd, .rs, .rt],
   entry "ANDI" .normal 0b001100 [.rt, .rs, .imm],
   entry "BEQ" .normal 0b000100 [.rs, .rt, .label],
   entry "B" .normal 0b000100 [.label],
   entry "BEQZ" .normal 0b000100 [.rs, .label],
   entry "BEQL" .normal 0b010100 [.rs, .rt, .label],
   entry "BEQZL" .normal 0b010100 [.rs, .label],
   entry "BGEZ" .regImm 0b00001 [.rs, .label],
   entry "BGEZAL" .regImm 0b10001 [.rs, .label],
   entry "BGEZALL" .regImm 0b10011 [.rs, .label],
   entry "BGEZL" .regImm 0b00011 [.rs, .label],
   entry "BGTZ" .normal 0b000111 [.rs, .label],
   entry "BGTZL" .normal 0b010111 [.rs, .label],
   entry "BLEZ" .normal 0b000110 [.rs, .label],
   entry "BLEZL" .normal 0b010110 [.rs, .label],
   entry "BLTZ" .regImm 0b00000 [.rs, .label],
   entry "BLTZAL" .regImm 0b10000 [.rs, .label],
   entry "BLTZALL" .regImm 0b10010 [.rs, .label],
   entry "BLTZL" .regImm 0b00010 [.rs, .label],
   entry "BNE" .normal 0b000101 [.rs, .rt, .label],
   entry "BNEZ" .normal 0b000101 [.rs, .label],
   entry "BNEL" .normal 0b010101 [.rs, .rt, .label],
   entry "BNEZL" .normal 0b010101 [.rs, .label],
   entry "BREAK" .special 0b001101 [],
   entry "DADD" .special 0b101100 [.rd, .rs, .rt],
   entry "DADDI" .normal 0b011000 [.rt, .rs, .imm],
   entry "DADDIU" .normal 0b011001 [.rt, .rs, .imm],
   entry "DADDU" .special 0b101101 [.rd, .rs, .rt],
   entry "DIV" .special 0b011010 [.rs, .rt],
   entry "DIVU" .special 0b011011 [.rs, .rt],
   entry "DSLL" .special 0b111000 [.rd, .rt, .shift],
   entry "DSLL32" .special 0b111100 [.rd, .rt, .shift],
   entry "DSLLV" .special 0b010100 [.rd, .rt, .rs],
   entry "DSRA" .special 0b111011 [.rd, .rt, .shift],
   entry "DSRA32" .special 0b111111 [.rd, .rt, .shift],
   entry "DSRAV" .special 0b010111 [.rd, .rt, .rs],
   entry "DSRL" .special 0b111010 [.rd, .rt, .shift],
   entry "DSRL32" .special 0b111110 [.rd, .rt, .shift],
   entry "DSRLV" .special 0b010110 [.rd, .rt, .rs],
   entry "DSUB" .special 0b101110 [.rd, .rs, .rt],
   entry "DSUBU" .special 0b101111 [.rd, .rs, .rt],
   entry "J" .jump 0b000010 [.label],
   entry "JAL" .jump 0b000011 [.label],
   entry "JALR" .special 0b001001 [.rd, .rs],
   entry "JR" .special 0b001000 [.rs],
   entry "LB" .normal 0b100000 [.rt, .imm, .rs],
   entry "LBU" .normal 0b100100 [.rt, .imm, .rs],
   entry "LD" .normal 0b110111 [.rt, .imm, .rs],
   entry "LDL" .normal 0b011010 [.rt, .imm, .rs],
   entry "LDR" .normal 0b011011 [.rt, .imm, .rs],
   entry "LH" .normal 0b100001 [.rt, .imm, .rs],
   entry "LHU" .normal 0b100101 [.rt, .imm, .rs],
   entry "LUI" .normal 0b001111 [.rt, .imm],
   entry "LW" .normal 0b100011 [.rt, .imm, .rs],
   entry "LWL" .normal 0b100010 [.rt, .imm, .rs],
   entry "LWR" .normal 0b100110 [.rt, .imm, .rs],
   entry "LWU" .normal 0b100111 [.rt, .imm, .rs],
   entry "MFHI" .special 0b010000 [.rd],
   entry "MFLO" .special 0b010010 [.rd],
   entry "MOVN" .special 0b001011 [.rd, .rs, .rt],
   entry "MOVZ" .special 0b001010 [.rd, .rs, .rt],
   entry "MTHI" .special 0b010001 [.rs],
   entry "MTLO" .special 0b010011 [.rs],
   entry "MULT" .special 0b011000 [.rs, .rt],
   entry "MULTU" .special 0b011001 [.rs, .rt],
   entry "NOR" .special 0b100111 [.rd, .rs, .rt],
   entry "OR" .special 0b100101 [.rd, .rs, .rt],
   entry "MOVE" .special 0b100101 [.rd, .rs],
   entry "DMOVE" .special 0b100101 [.rd, .rs],
   entry "ORI" .normal 0b001101 [.rt, .rs, .imm],
   entry "SB" .normal 0b101000 [.rt, .imm, .rs],
   entry "SD" .normal 0b111111 [.rt, .imm, .rs],
   entry "SDL" .normal 0b101100 [.rt, .imm, .rs],
   entry "SDR" .normal 0b101101 [.rt, .imm, .rs],
   entry "SH" .normal 0b101001 [.rt, .imm, .rs],
   entry "SLL" .special 0b000000 [.rd, .rt, .shift],
   entry "NOP" .special 0b000000 [],
   entry "SLLV" .special 0b000100 [.rd, .rt, .rs],
   entry "SLT" .special 0b101010 [.rd, .rs, .rt],
   entry "SLTI" .normal 0b001010 [.rt, .rs, .imm],
   entry "SLTIU" .normal 0b001011 [.rt, .rs, .imm],
   entry "SLTU" .special 0b101011 [.rd, .rs, .rt],
   entry "SRA" .special 0b000011 [.rd, .rt, .shift],
   entry "SRAV" .special 0b000111 [.rd, .rt, .rs],
   entry "SRL" .special 0b000010 [.rd, .rt, .shift],
   entry "SRLV" .special 0b000110 [.rd, .rt, .rs],
   entry "SUB" .special 0b100010 [.rd, .rs, .rt],
   entry "NEG" .special 0b100010 [.rd, .rt],
   entry "SUBU" .special 0b100011 [.rd, .rs, .rt],
   entry "NEGU" .special 0b100011 [.rd, .rt],
   entry "SW" .normal 0b101011 [.rt, .imm, .rs],
   entry "SWL" .normal 0b101010 [.rt, .imm, .rs],
   entry "SWR" .normal 0b101110 [.rt, .imm, .rs],
   entry "SYNC" .special 0b001111 [],
   entry "SYSCALL" .special 0b001100 [],
   entry "TEQ" .special 0b110100 [.rs, .rt],
   entry "TEQI" .regImm 0b01100 [.rs, .imm],
   entry "TGE" .special 0b110000 [.rs, .rt],
   entry "TGEI" .regImm 0b01000 [.rs, .imm],
   entry "TGEIU" .regImm 0b01001 [.rs, .imm],
   entry "TGEU" .special 0b110001 [.rs, .rt],
   entry "TLT" .special 0b110010 [.rs, .rt],
   entry "TLTI" .regImm 0b01010 [.rs, .imm],
   entry "TLTIU" .regImm 0b01011 [.rs, .imm],
   entry "TLTU" .special 0b110011 [.rs, .rt],
   entry "TNE" .special 0b110110 [.rs, .rt],
   entry "TNEI" .regImm 0b01110 [.rs, .imm],
   entry "XOR" .special 0b100110 [.rd, .rs, .rt],
   entry "XORI" .normal 0b001110 [.rt, .rs, .imm],
   entry "DIV1" .mmi 0b011010 [.rs, .rt],
   entry "DIVU1" .mmi 0b011011 [.rs, .rt],
   entry "LQ" .normal 0b011110 [.rt, .imm, .rs],
   entry "MADD" .mmi 0b000000 [.rd, .rs, .rt],
   entry "MADD1" .mmi 0b100000 [.rd, .rs, .rt],
   entry "MADDU" .mmi 0b000001 [.rd, .rs, .rt],
   entry "MADDU1" .mmi 0b100001 [.rd, .rs, .rt],
   entry "MFHI1" .mmi 0b010000 [.rd],
   entry "MFLO1" .mmi 0b010010 [.rd],
   entry "MFSA" .special 0b101000 [.rd],
   entry "MTHI1" .mmi 0b010001 [.rs],
   entry "MTLO1" .mmi 0b010011 [.rs],
   entry "MTSA" .special 0b101001 [.rs],
   entry "MTSAB" .regImm 0b11000 [.rs, .imm],
   entry "MTSAH" .regImm 0b11001 [.rs, .imm],
   entry "MULT1" .mmi 0b011000 [.rd, .rs, .rt],
   entry "MULTU1" .mmi 0b011001 [.rd, .rs, .rt],
   entry "PABSH" .mmi1 0b00101 [.rd, .rt],
   entry "PABSW" .mmi1 0b00001 [.rd, .rt],
   entry "PADDB" .mmi0 0b01000 [.rd, .rs, .rt],
   entry "PADDH" .mmi0 0b00100 [.rd, .rs, .rt],
   entry "PADDSB" .mmi0 0b11000 [.rd, .rs, .rt],
   entry "PADDSH" .mmi0 0b10100 [.rd, .rs, .rt],
   entry "PADDSW" .mmi0 0b10000 [.rd, .rs, .rt],
   entry "PADDUB" .mmi1 0b11000 [.rd, .rs, .rt],
   entry "PADDUH" .mmi1 0b10100 [.rd, .rs, .rt],
   entry "PADDUW" .mmi1 0b10000 [.rd, .rs, .rt],
   entry "PADDW" .mmi0 0b00000 [.rd, .rs, .rt],
   entry "PADSBH" .mmi1 0b00100 [.rd, .rs, .rt],
   entry "PAND" .mmi2 0b10010 [.rd, .rs, .rt],
   entry "PCEQB" .mmi1 0b01010 [.rd, .rs, .rt],
   entry "PCEQH" .mmi1 0b00110 [.rd, .rs, .rt],
   entry "PCEQW" .mmi1 0b00010 [.rd, .rs, .rt],
   entry "PCGTB" .mmi0 0b01010 [.rd, .rs, .rt],
   entry "PCGTH" .mmi0 0b00110 [.rd, .rs, .rt],
   entry "PCGTW" .mmi0 0b00010 [.rd, .rs, .rt],
   entry "PCPYH" .mmi3 0b11011 [.rd, .rt],
   entry "PCPYLD" .mmi2 0b01110 [.rd, .rs, .rt],
   entry "PCPYUD" .mmi3 0b01110 [.rd, .rs, .rt],
   entry "PDIVBW" .mmi2 0b11101 [.rs, .rt],
   entry "PDIVUW" .mmi3 0b01101 [.rs, .rt],
   entry "PDIVW" .mmi2 0b01101 [.rs, .rt],
   entry "PEXCH" .mmi3 0b11010 [.rd, .rt],
   entry "PEXCW" .mmi3 0b11110 [.rd, .rt],
   entry "PEXEH" .mmi2 0b11010 [.rd, .rt],
   entry "PEXEW" .mmi2 0b11110 [.rd, .rt],
   entry "PEXT5" .mmi0 0b11110 [.rd, .rt],
   entry "PEXTLB" .mmi0 0b11010 [.rd, .rs, .rt],
   entry "PEXTLH" .mmi0 0b10110 [.rd, .rs, .rt],
   entry "PEXTLW" .mmi0 0b10010 [.rd, .rs, .rt],
   entry "PEXTUB" .mmi1 0b11010 [.rd, .rs, .rt],
   entry "PEXTUH" .mmi1 0b10110 [.rd, .rs, .rt],
   entry "PEXTUW" .mmi1 0b10010 [.rd, .rs, .rt],
   entry "PHMADH" .mmi2 0b10001 [.rd, .rs, .rt],
   entry "PHMSBH" .mmi2 0b10101 [.rd, .rs, .rt],
   entry "PINTEH" .mmi3 0b01010 [.rd, .rs, .rt],
   entry "PINTH" .mmi2 0b01010 [.rd, .rs, .rt],
   entry "PLZCW" .mmi 0b000100 [.rd, .rs],
   entry "PMADDH" .mmi2 0b10000 [.rd, .rs, .rt],
   entry "PMADDUW" .mmi3 0b00000 [.rd, .rs, .rt],
   entry "PMADDW" .mmi2 0b00000 [.rd, .rs, .rt],
   entry "PMAXH" .mmi0 0b00111 [.rd, .rs, .rt],
   entry "PMAXW" .mmi0 0b00011 [.rd, .rs, .rt],
   entry "PMFHI" .mmi2 0b01000 [.rd],
   entry "PMFHL.LH" .pmfhl 0b00011 [.rd],
   entry "PMFHL.LW" .pmfhl 0b00000 [.rd],
   entry "PMFHL.SH" .pmfhl 0b00100 [.rd],
   entry "PMFHL.SLW" .pmfhl 0b00010 [.rd],
   entry "PMFHL.UW" .pmfhl 0b00001 [.rd],
   entry "PMFLO" .mmi2 0b01001 [.rd],
   entry "PMINH" .mmi1 0b00111 [.rd, .rs, .rt],
   entry "PMINW" .mmi1 0b00011 [.rd, .rs, .rt],
   entry "PMSUBH" .mmi2 0b10100 [.rd, .rs, .rt],
   entry "PMSUBW" .mmi2 0b00100 [.rd, .rs, .rt],
   entry "PMTHI" .mmi3 0b01000 [.rs],
   entry "PMTHL.LW" .pmthl 0b00000 [.rs],
   entry "PMTLO" .mmi3 0b01001 [.rs],
   entry "PMULTH" .mmi2 0b11100 [.rd, .rs, .rt],
   entry "PMULTUW" .mmi3 0b01100 [.rd, .rs, .rt],
   entry "PMULTW" .mmi2 0b01100 [.rd, .rs, .rt],
   entry "PNOR" .mmi3 0b10011 [.rd, .rs, .rt],
   entry "POR" .mmi3 0b10010 [.rd, .rs, .rt],
   entry "PPAC5" .mmi0 0b11111 [.rd, .rt],
   entry "PPACB" .mmi0 0b11011 [.rd, .rs, .rt],
   entry "PPACH" .mmi0 0b10111 [.rd, .rs, .rt],
   entry "PPACW" .mmi0 0b10011 [.rd, .rs, .rt],
   entry "PREVH" .mmi2 0b11011 [.rd, .rt],
   entry "PROT3W" .mmi2 0b11111 [.rd, .rt],
   entry "PSLLH" .mmi 0b110100 [.rd, .rt, .shift],
   entry "PSLLVW" .mmi2 0b00010 [.rd, .rt, .rs],
   entry "PSLLW" .mmi 0b111100 [.rd, .rt, .shift],
   entry "PSRAH" .mmi 0b110111 [.rd, .rt, .shift],
   entry "PSRAVW" .mmi3 0b00011 [.rd, .rt, .rs],
   entry "PSRAW" .mmi 0b111111 [.rd, .rt, .shift],
   entry "PSRLH" .mmi 0b110110 [.rd, .rt, .shift],
   entry "PSRLVW" .mmi2 0b00011 [.rd, .rs, .rt],
   entry "PSRLW" .mmi 0b111110 [.rd, .rt, .shift],
   entry "PSUBB" .mmi0 0b01001 [.rd, .rs, .rt],
   entry "PSUBH" .mmi0 0b00101 [.rd, .rs, .rt],
   entry "PSUBSB" .mmi0 0b11001 [.rd, .rs, .rt],
   entry "PSUBSH" .mmi0 0b10101 [.rd, .rs, .rt],
   entry "PSUBSW" .mmi0 0b10001 [.rd, .rs, .rt],
   entry "PSUBUB" .mmi1 0b11001 [.rd, .rs, .rt],
   entry "PSUBUH" .mmi1 0b10101 [.rd, .rs, .rt],
   entry "PSUBUW" .mmi1 0b10001 [.rd, .rs, .rt],
   entry "PSUBW" .mmi0 0b00001 [.rd, .rs, .rt],
   entry "PXOR" .mmi2 0b10011 [.rd, .rs, .rt],
   entry "QFSRV" .mmi1 0b11011 [.rd, .rs, .rt],
   entry "SQ" .normal 0b011111 [.rt, .imm, .rs],
   entry "ABS.S" .fpuS 0b000101 [.fd, .fs],
   entry "ADD.S" .fpuS 0b000000 [.fd, .fs, .ft],
   entry "ADDA.S" .fpuS 0b011000 [.fs, .ft],
   entry "BC1F" .bc1 0b00000 [.label],
   entry "BC1FL" .bc1 0b00010 [.label],
   entry "BC1T" .bc1 0b00001 [.label],
   entry "BC1TL" .bc1 0b00011 [.label],
   entry "C.EQ.S" .fpuS 0b110010 [.fs, .ft],
   entry "C.F.S" .fpuS 0b110000 [.fs, .ft],
   entry "C.LE.S" .fpuS 0b110110 [.fs, .ft],
   entry "C.LT.S" .fpuS 0b110100 [.fs, .ft],
   entry "CFC1" .cop1 0b00010 [.rt, .fs],
   entry "CTC1" .cop1 0b00110 [.rt, .fs],
   entry "CVT.S.W" .fpuW 0b100000 [.fd, .fs],
   entry "CVT.W.S" .fpuS 0b100100 [.fd, .fs],
   entry "DIV.S" .fpuS 0b000011 [.fd, .fs, .ft],
   entry "LWC1" .normal 0b110001 [.ft, .imm, .rs],
   entry "MADD.S" .fpuS 0b011100 [.fd, .fs, .ft],
   entry "MADDA.S" .fpuS 0b011110 [.fs, .ft],
   entry "MAX.S" .fpuS 0b101000 [.fd, .fs, .ft],
   entry "MFC1" .cop1 0b00000 [.rt, .fs],
   entry "MIN.S" .fpuS 0b101001 [.fd, .fs, .ft],
   entry "MOV.S" .fpuS 0b000110 [.fd, .fs],
   entry "MSUB.S" .fpuS 0b011101 [.fd, .fs, .ft],
   entry "MSUBA.S" .fpuS 0b011111 [.fs, .ft],
   entry "MTC1" .cop1 0b00100 [.rt, .fs],
   entry "MUL.S" .fpuS 0b000010 [.fd, .fs, .ft],
   entry "MULA.S" .fpuS 0b011010 [.fs, .ft],
   entry "NEG.S" .fpuS 0b000111 [.fd, .fs],
   entry "RSQRT.S" .fpuS 0b010110 [.fd, .fs, .ft],
   entry "SQRT.S" .fpuS 0b000100 [.fd, .ft],
   entry "SUB.S" .fpuS 0b000001 [.fd, .fs, .ft],
   entry "SUBA.S" .fpuS 0b011001 [.fs, .ft],
   entry "SWC1" .normal 0b111001 [.ft, .imm, .rs],
   entry "CFC2" .cop2 0b00010 [.rt, .vid],
   entry "CTC2" .cop2 0b00110 [.rt, .vid],
   entry "LQC2" .normal 0b110110 [.vft, .imm, .rs],
   entry "QMFC2" .cop2 0b00001 [.rt, .vfd],
   entry "QMTC2" .cop2 0b00101 [.rt, .vfd],
   entry "SQC2" .normal 0b111110 [.vft, .imm, .rs],
   entry "VABS" .cop2Special2 0b0011101 [.vft, .vfs],
   entry "VADD" .cop2Special1 0b101000 [.vfd, .vfs, .vft],
   entry "VADDI" .cop2Special1 0b100010 [.vfd, .vfs],
   entry "VADDQ" .cop2Special1 0b100000 [.vfd, .vfs],
   entry "VADDX" .cop2Special1 0b000000 [.vfd, .vfs, .vft],
   entry "VADDY" .cop2Special1 0b000001 [.vfd, .vfs, .vft],
   entry "VADDZ" .cop2Special1 0b000010 [.vfd, .vfs, .vft],
   entry "VADDW" .cop2Special1 0b000011 [.vfd, .vfs, .vft],
   entry "VADDA" .cop2Special2 0b0101000 [.vfs, .vft],
   entry "VADDAI" .cop2Special2 0b0100010 [.vfs],
   entry "VADDAQ" .cop2Special2 0b0100000 [.vfs],
   entry "VADDAX" .cop2Special2 0b0000000 [.vfs, .vft],
   entry "VADDAY" .cop2Special2 0b0000001 [.vfs, .vft],
   entry "VADDAZ" .cop2Special2 0b0000010 [.vfs, .vft],
   entry "VADDAW" .cop2Special2 0b0000011 [.vfs, .vft],
   entry "VCLIPW.XYZ" .cop2Special2 0b0011111 [.vfs, .vft],
   entry "VFTOI0" .cop2Special2 0b0010100 [.vft, .vfs],
   entry "VFTOI4" .cop2Special2 0b0010101 [.vft, .vfs],
   entry "VFTOI12" .cop2Special2 0b0010110 [.vft, .vfs],
   entry "VFTOI15" .cop2Special2 0b0010111 [.vft, .vfs],
   entry "VIADD" .cop2Special1 0b110000 [.vid, .vis, .vit],
   entry "VIADDI" .cop2Special1 0b110010 [.vit, .vis, .imm5],
   entry "VIAND" .cop2Special1 0b110100 [.vid, .vis, .vit],
   entry "VIOR" .cop2Special1 0b110101 [.vid, .vis, .vit],
   entry "VISUB" .cop2Special1 0b110001 [.vid, .vis, .vit],
   entry "VITOF0" .cop2Special2 0b0010000 [.vft, .vfs],
   entry "VITOF4" .cop2Special2 0b0010001 [.vft, .vfs],
   entry "VITOF12" .cop2Special2 0b0010010 [.vft, .vfs],
   entry "VITOF15" .cop2Special2 0b0010011 [.vft, .vfs],
   entry "VMADD" .cop2Special1 0b101001 [.vfd, .vfs, .vft],
   entry "VMADDI" .cop2Special1 0b100011 [.vfd, .vfs],
   entry "VMADDQ" .cop2Special1 0b100001 [.vfd, .vfs],
   entry "VMADDX" .cop2Special1 0b001000 [.vfd, .vfs, .vft],
   entry "VMADDY" .cop2Special1 0b001001 [.vfd, .vfs, .vft],
   entry "VMADDZ" .cop2Special1 0b001010 [.vfd, .vfs, .vft],
   entry "VMADDW" .cop2Special1 0b001011 [.vfd, .vfs, .vft],
   entry "VMADDA" .cop2Special2 0b0101001 [.vfs, .vft],
   entry "VMADDAI" .cop2Special2 0b0100011 [.vfs],
   entry "VMADDAQ" .cop2Special2 0b0100001 [.vfs],
   entry "VMADDAX" .cop2Special2 0b0001000 [.vfs, .vft],
   entry "VMADDAY" .cop2Special2 0b0001001 [.vfs, .vft],
   entry "VMADDAZ" .cop2Special2 0b0001010 [.vfs, .vft],
   entry "VMADDAW" .cop2Special2 0b0001011 [.vfs, .vft],
   entry "VMAX" .cop2Special1 0b101011 [.vfd, .vfs, .vft],
   entry "VMAXI" .cop2Special1 0b011101 [.vfd, .vfs],
   entry "VMAXX" .cop2Special1 0b010000 [.vfd, .vfs, .vft],
   entry "VMAXY" .cop2Special1 0b010001 [.vfd, .vfs, .vft],
   entry "VMAXZ" .cop2Special1 0b010010 [.vfd, .vfs, .vft],
   entry "VMAXW" .cop2Special1 0b010011 [.vfd, .vfs, .vft],
   entry "VMFIR" .cop2Special2 0b0111101 [.vft, .vis],
   entry "VMINI" .cop2Special1 0b101111 [.vfd, .vfs, .vft],
   entry "VMINII" .cop2Special1 0b011111 [.vfd, .vfs],
   entry "VMINIX" .cop2Special1 0b010100 [.vfd, .vfs, .vft],
   entry "VMINIY" .cop2Special1 0b010101 [.vfd, .vfs, .vft],
   entry "VMINIZ" .cop2Special1 0b010110 [.vfd, .vfs, .vft],
   entry "VMINIW" .cop2Special1 0b010111 [.vfd, .vfs, .vft],
   entry "VMOVE" .cop2Special2 0b0110000 [.vft, .vfs],
   entry "VMR32" .cop2Special2 0b0110001 [.vft, .vfs],
   entry "VMSUB" .cop2Special1 0b101101 [.vfd, .vfs, .vft],
   entry "VMSUBI" .cop2Special1 0b100111 [.vfd, .vfs],
   entry "VMSUBQ" .cop2Special1 0b100101 [.vfd, .vfs],
   entry "VMSUBX" .cop2Special1 0b001100 [.vfd, .vfs, .vft],
   entry "VMSUBY" .cop2Special1 0b001101 [.vfd, .vfs, .vft],
   entry "VMSUBZ" .cop2Special1 0b001110 [.vfd, .vfs, .vft],
   entry "VMSUBW" .cop2Special1 0b001111 [.vfd, .vfs, .vft],
   entry "VMSUBA" .cop2Special2 0b0101101 [.vfs, .vft],
   entry "VMSUBAI" .cop2Special2 0b0100111 [.vfs],
   entry "VMSUBAQ" .cop2Special2 0b0100101 [.vfs],
   entry "VMSUBAX" .cop2Special2 0b0001100 [.vfs, .vft],
   entry "VMSUBAY" .cop2Special2 0b0001101 [.vfs, .vft],
   entry "VMSUBAZ" .cop2Special2 0b0001110 [.vfs, .vft],
   entry "VMSUBAW" .cop2Special2 0b0001111 [.vfs, .vft],
   entry "VMUL" .cop2Special1 0b101010 [.vfd, .vfs, .vft],
   entry "VMULI" .cop2Special1 0b011110 [.vfd, .vfs],
   entry "VMULQ" .cop2Special1 0b011100 [.vfd, .vfs],
   entry "VMULX" .cop2Special1 0b011000 [.vfd, .vfs, .vft],
   entry "VMULY" .cop2Special1 0b011001 [.vfd, .vfs, .vft],
   entry "VMULZ" .cop2Special1 0b011010 [.vfd, .vfs, .vft],
   entry "VMULW" .cop2Special1 0b011011 [.vfd, .vfs, .vft],
   entry "VMULA" .cop2Special2 0b0101010 [.vfs, .vft],
   entry "VMULAI" .cop2Special2 0b0011110 [.vfs],
   entry "VMULAQ" .cop2Special2 0b0011100 [.vfs],
   entry "VMULAX" .cop2Special2 0b0011000 [.vfs, .vft],
   entry "VMULAY" .cop2Special2 0b0011001 [.vfs, .vft],
   entry "VMULAZ" .cop2Special2 0b0011010 [.vfs, .vft],
   entry "VMULAW" .cop2Special2 0b0011011 [.vfs, .vft],
   entry "VNOP" .cop2Special2 0b0101111 [],
   entry "VOPMULA.XYZ" .cop2Special2 0b0101110 [.vfs, .vft],
   entry "VOPMSUB.XYZ" .cop2Special1 0b101110 [.vfd, .vfs, .vft],
   entry "VRGET" .cop2Special2 0b1000001 [.vft],
   entry "VRNEXT" .cop2Special2 0b1000000 [.vft],
   entry "VSUB" .cop2Special1 0b101100 [.vfd, .vfs, .vft],
   entry "VSUBI" .cop2Special1 0b100110 [.vfd, .vfs],
   entry "VSUBQ" .cop2Special1 0b100100 [.vfd, .vfs],
   entry "VSUBX" .cop2Special1 0b000100 [.vfd, .vfs, .vft],
   entry "VSUBY" .cop2Special1 0b000101 [.vfd, .vfs, .vft],
   entry "VSUBZ" .cop2Special1 0b000110 [.vfd, .vfs, .vft],
   entry "VSUBW" .cop2Special1 0b000111 [.vfd, .vfs, .vft],
   entry "VSUBA" .cop2Special2 0b0101100 [.vfs, .vft],
   entry "VSUBAI" .cop2Special2 0b0100110 [.vfs],
   entry "VSUBAQ" .cop2Special2 0b0100100 [.vfs],
   entry "VSUBAX" .cop2Special2 0b0000100 [.vfs, .vft],
   entry "VSUBAY" .cop2Special2 0b0000101 [.vfs, .vft],
   entry "VSUBAZ" .cop2Special2 0b0000110 [.vfs, .vft],
   entry "VSUBAW" .cop2Special2 0b0000111 [.vfs, .vft],
   entry "VWAITQ" .cop2Special2 0b0111011 []]

/-- The row of a mnemonic as it is spelled. -/
def spelled? (mnemonic : Bytes) : Option Instruction := table.find? (·.mnemonic == mnemonic)

/-- The part of a mnemonic before its first full stop and the part after it. -/
def cutSuffix? (mnemonic : Bytes) : Option (Bytes × Bytes) := Bytes.cut? Byte.dot mnemonic

/-- The row of an upper-case mnemonic. A suffix is put aside only where the family can carry one. -/
def find? (mnemonic : Bytes) : Option Instruction :=
  match spelled? mnemonic with
  | some e => some e
  | none => match cutSuffix? mnemonic with
    | none => none
    | some (stem, _) => (spelled? stem).filter (·.family.hasSuffix)

end Instruction

end CheatScript
