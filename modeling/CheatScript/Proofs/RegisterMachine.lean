import CheatScript.Proofs.InstructionWords

/-!
# Proofs: a machine with general registers

What the instructions that the assembler writes for its pseudo-instructions do to the general
registers, and the address at which a load or store reaches the memory. The machine reads the bits
of a word by itself. It has 64-bit registers of which the first is always zero; addresses have 32
bits.
-/

namespace CheatScript

/-! ## Registers -/

/-- The contents of the general registers. What is written to the first one is never read. -/
structure Registers where
  contents : BitVec 5 → BitVec 64

namespace Registers

/-- The number in a register. -/
def read (s : Registers) (r : BitVec 5) : BitVec 64 := if r = 0 then 0 else s.contents r

/-- The registers with another number in one of them. -/
def write (s : Registers) (r : BitVec 5) (v : BitVec 64) : Registers :=
  ⟨fun q => if q = r then v else s.contents q⟩

@[simp]
theorem read_zero (s : Registers) : s.read 0 = 0 := if_pos rfl

theorem read_write_self (s : Registers) {r : BitVec 5} (hr : r ≠ 0) (v : BitVec 64) :
    (s.write r v).read r = v := by
  rw [read, if_neg hr]
  exact if_pos rfl

/-- Writing to a register leaves the others as they are. -/
theorem read_write_of_ne (s : Registers) {r q : BitVec 5} (h : q ≠ r) (v : BitVec 64) :
    (s.write r v).read q = s.read q := by
  have hcontents : (s.write r v).contents q = s.contents q := if_neg h
  rw [read, read, hcontents]

/-- The last number written to a register is the one that stays. -/
theorem write_write (s : Registers) (r : BitVec 5) (u v : BitVec 64) :
    (s.write r u).write r v = s.write r v := by
  unfold write
  congr 1
  funext q
  by_cases hq : q = r
  · simp only [if_pos hq]
  · simp only [if_neg hq]

end Registers

/-! ## Fields of a word -/

namespace Word

/-- The number of the first source register. -/
def rs (w : Word) : BitVec 5 := w.extractLsb' 21 5

/-- The number of the second source register, or of the target of an immediate instruction. -/
def rt (w : Word) : BitVec 5 := w.extractLsb' 16 5

/-- The number of the destination register. -/
def rd (w : Word) : BitVec 5 := w.extractLsb' 11 5

/-- The immediate. -/
def imm (w : Word) : BitVec 16 := w.extractLsb' 0 16

end Word

namespace Instruction

variable {e : Instruction} (f : Fields)

theorem rs_pack (h : e.family = .normal) : (e.pack f).rs = f.rs := by
  have hslot :=
    rawFields_pack_slot (f := f) (s := .rs) (by rw [h]; rfl : e.family.hasSlot .rs = true)
  rw [h] at hslot
  exact hslot

theorem rt_pack (h : e.family = .normal) : (e.pack f).rt = f.rt := by
  have hslot :=
    rawFields_pack_slot (f := f) (s := .rt) (by rw [h]; rfl : e.family.hasSlot .rt = true)
  rw [h] at hslot
  exact hslot

theorem imm_pack_of_hasImmediate (h : e.family.hasImmediate = true) :
    (e.pack f).imm = f.imm.setWidth 16 := by
  have himm := rawFields_pack_immediate (f := f) h
  have hraw : (rawFields e.family (e.pack f)).imm = (e.pack f).imm.signExtend 32 := by
    cases hfam : e.family <;> rw [hfam] at h <;> first | rfl | cases h
  rwa [hraw, setWidth_signExtend (by decide)] at himm

theorem imm_pack (h : e.family = .normal) : (e.pack f).imm = f.imm.setWidth 16 :=
  imm_pack_of_hasImmediate f (by rw [h]; rfl)

theorem major_pack (he : e ∈ table) (h : e.family = .normal) : (e.pack f).bits 26 6 = e.opcode := by
  have hop := opcode_pack (table_placed e he) f
  rw [h] at hop
  exact hop

end Instruction

/-! ## Execution -/

namespace Registers

/-- What an instruction that only computes does to the registers: the upper half is loaded, a signed
or an unsigned immediate is added, or two registers are compared. -/
def execute (s : Registers) (w : Word) : Option Registers := match w.bits 26 6 with
  -- lui
  | 0b001111 => some (s.write w.rt ((w.imm ++ 0#16 : BitVec 32).signExtend 64))
  -- addiu
  | 0b001001 =>
    some (s.write w.rt (((s.read w.rs).setWidth 32 + w.imm.signExtend 32).signExtend 64))
  -- ori
  | 0b001101 => some (s.write w.rt (s.read w.rs ||| w.imm.setWidth 64))
  -- slt
  | 0b000000 =>
    if w.bits 0 6 = 0b101010 then
      some (s.write w.rd (if (s.read w.rs).slt (s.read w.rt) then 1 else 0))
    else none
  | _ => none

/-- The address that a load or store reaches: the base and the signed offset, modulo `2 ^ 32`. -/
def effectiveAddress (s : Registers) (w : Word) : Word :=
  (s.read w.rs).setWidth 32 + w.imm.signExtend 32

/-- The address that the last word of some code reaches, after those before it. -/
def accessAddress? : (code : List Word) → Registers → Option Word
  | [], _ => none
  | [access], s => some (s.effectiveAddress access)
  | w :: code, s => (s.execute w).bind (accessAddress? code)

theorem accessAddress?_cons_cons (s : Registers) (w w' : Word) (code : List Word) :
    s.accessAddress? (w :: w' :: code) = (s.execute w).bind (accessAddress? (w' :: code)) := rfl

/-- What some code that only computes does to the registers. -/
def run : (code : List Word) → Registers → Option Registers
  | [], s => some s
  | w :: code, s => (s.execute w).bind (run code)

theorem execute_upper (s : Registers) {w : Word} (h : w.bits 26 6 = 0b001111) :
    s.execute w = some (s.write w.rt ((w.imm ++ 0#16 : BitVec 32).signExtend 64)) := by
  rw [execute, h]
  rfl

theorem execute_add (s : Registers) {w : Word} (h : w.bits 26 6 = 0b001001) :
    s.execute w =
      some (s.write w.rt (((s.read w.rs).setWidth 32 + w.imm.signExtend 32).signExtend 64)) := by
  rw [execute, h]
  rfl

theorem execute_or (s : Registers) {w : Word} (h : w.bits 26 6 = 0b001101) :
    s.execute w = some (s.write w.rt (s.read w.rs ||| w.imm.setWidth 64)) := by
  rw [execute, h]
  rfl

end Registers

end CheatScript
