import CheatScript.Proofs.LineCode

/-!
# Proofs: loading a number loads it

A number is loaded to a register by one or two instructions, chosen by its size: an unsigned or a
signed immediate, an upper half, or an upper half and then the lower one. Immediates are extended
with zeros by one instruction and with the sign by another, and in each case the register ends up
with the sign extension of the number.
-/

namespace CheatScript.Assembly

open Instruction

variable {t : DefinitionTable} {c : Command} {target value : Bytes} {r q : BitVec 5} {u v : Word}

/-! ## Numbers -/

/-- The upper half with the sign in front and the lower half are put together by or. -/
theorem upper_or_lower (hi lo : BitVec 16) :
    (hi ++ 0#16 : BitVec 32).signExtend 64 ||| lo.setWidth 64 =
    (hi ++ lo : BitVec 32).signExtend 64 := by
  apply BitVec.eq_of_getLsbD_eq
  intro i hlt
  rw [BitVec.getLsbD_or, BitVec.getLsbD_signExtend, BitVec.getLsbD_signExtend,
    BitVec.getLsbD_setWidth,
    BitVec.getLsbD_append, BitVec.getLsbD_append, BitVec.msb_append, BitVec.msb_append]
  by_cases hlow : i < 16
  · simp [hlow, hlt, Nat.lt_trans hlow (by decide : 16 < 32)]
  · have hzero : lo.getLsbD i = false := BitVec.getLsbD_of_ge lo i (by omega)
    simp [hlow, hzero]

theorem signExtend_of_small (hlow : 0 ≤ v.toInt) (hhigh : v.toInt < 0x10000) :
    (v.setWidth 16).setWidth 64 = v.signExtend 64 := by
  have hmsb : v.msb = false := BitVec.msb_eq_false_iff_two_mul_lt.2 (by
    rw [BitVec.toInt_eq_toNat_cond] at hlow
    split at hlow
    · assumption
    · have hlt := v.isLt
      omega)
  rw [BitVec.signExtend_eq_setWidth_of_msb_false hmsb]
  rw [BitVec.toInt_eq_toNat_of_msb hmsb] at hhigh
  apply BitVec.eq_of_toNat_eq
  simp only [BitVec.toNat_setWidth]
  omega

/-! ## Rows -/

def orRow : Instruction := entry "ORI" .normal 0b001101 [.rt, .rs, .imm]

def addRow : Instruction := entry "ADDIU" .normal 0b001001 [.rt, .rs, .imm]

theorem find?_orRow : find? (ascii "ORI") = some orRow := rfl

theorem find?_addRow : find? (ascii "ADDIU") = some addRow := rfl

theorem execute_orRow (s : Registers) (q r : BitVec 5) (v : Word) :
    s.execute (orRow.pack { rs := q, rt := r, imm := v }) =
      some (s.write r (s.read q ||| (v.setWidth 16).setWidth 64)) := by
  have hop := major_pack { rs := q, rt := r, imm := v } (mem_table_of_find? find?_orRow) rfl
  rw [Registers.execute_or s hop, rt_pack _ rfl, rs_pack _ rfl, imm_pack _ rfl]

theorem execute_addRow (s : Registers) (q r : BitVec 5) (v : Word) :
    s.execute (addRow.pack { rs := q, rt := r, imm := v }) =
      some (s.write r
        (((s.read q).setWidth 32 + (v.setWidth 16).signExtend 32).signExtend 64)) := by
  have hop := major_pack { rs := q, rt := r, imm := v } (mem_table_of_find? find?_addRow) rfl
  rw [Registers.execute_add s hop, rt_pack _ rfl, rs_pack _ rfl, imm_pack _ rfl]

/-! ## Code that loads a number -/

/-- Whether code loads a number to a register: it has one or two words, the register ends up with
the sign extension of the number, and the others keep theirs. -/
def Loads (code : List Word) (r : BitVec 5) (v : Word) : Prop :=
  (code.length = 1 ∨ code.length = 2) ∧
    ∀ s : Registers, ∃ s', Registers.run code s = some s' ∧ s'.read r = v.signExtend 64 ∧
      ∀ q, q ≠ r → s'.read q = s.read q

theorem loads_of_run {code : List Word} (hlen : code.length = 1 ∨ code.length = 2) (hr : r ≠ 0)
    (h : ∀ s : Registers, Registers.run code s = some (s.write r (v.signExtend 64))) :
    Loads code r v :=
  ⟨hlen, fun s => ⟨_, h s, s.read_write_self hr _, fun _ hq => s.read_write_of_ne hq _⟩⟩

/-- A number of 16 bits without sign is loaded by an or with zero. -/
theorem loads_or (hr : r ≠ 0) (hlow : 0 ≤ v.toInt) (hhigh : v.toInt < 0x10000) :
    Loads [orRow.pack { rs := 0, rt := r, imm := v }] r v := by
  refine loads_of_run (.inl rfl) hr fun s => ?_
  have hvalue : 0 ||| (v.setWidth 16).setWidth 64 = v.signExtend 64 :=
    BitVec.zero_or.trans (signExtend_of_small hlow hhigh)
  rw [Registers.run, execute_orRow, Registers.read_zero, hvalue]
  rfl

/-- A small negative number is loaded by an addition to zero. -/
theorem loads_add (hr : r ≠ 0) (hlow : -0x8000 ≤ v.toInt) (hhigh : v.toInt < 0) :
    Loads [addRow.pack { rs := 0, rt := r, imm := v }] r v := by
  refine loads_of_run (.inl rfl) hr fun s => ?_
  have hvalue : (0 : BitVec 64).setWidth 32 + (v.setWidth 16).signExtend 32 = v := by
    rw [← eq_signExtend hlow (by omega)]
    exact BitVec.zero_add v
  rw [Registers.run, execute_addRow, Registers.read_zero, hvalue]
  rfl

/-- Other numbers are loaded by their upper half, if the lower one is zero. -/
theorem loads_upper (hr : r ≠ 0) (hu : u.setWidth 16 = v.extractLsb' 16 16)
    (hlow : v.extractLsb' 0 16 = 0#16) : Loads [upperRow.pack { rt := r, imm := u }] r v := by
  refine loads_of_run (.inl rfl) hr fun s => ?_
  have hhalves : (u.setWidth 16 ++ 0#16 : BitVec 32) = v := by
    rw [hu, ← hlow, BitVec.extractLsb'_append_extractLsb']
  rw [Registers.run, execute_upperRow, hhalves]
  rfl

/-- The lower half is put in by an or with the register itself, whose lower half is zero. -/
theorem loads_halves {l : Word} (hr : r ≠ 0) (hu : u.setWidth 16 = v.extractLsb' 16 16)
    (hl : l.setWidth 16 = v.extractLsb' 0 16) :
    Loads [upperRow.pack { rt := r, imm := u }, orRow.pack { rs := r, rt := r, imm := l }] r v := by
  refine loads_of_run (.inr rfl) hr fun s => ?_
  rw [Registers.run, execute_upperRow, Option.bind_some, Registers.run, execute_orRow,
    Registers.read_write_self s hr, Registers.write_write, upper_or_lower, hu, hl,
    BitVec.extractLsb'_append_extractLsb']
  rfl

/-! ## Lines -/

theorem hasMark_hexOperand (n : Nat) : Argument.hasMark Byte.comma (hexOperand n) = true := rfl

theorem instructionsOf_li (hname : c.name = ascii "LI") : instructionsOf t c = loadImmediate c := by
  have htwo : ascii "LI" ∉ twoOperandForms := by decide
  have hshift : ascii "LI" ∉ shiftForms := by decide
  have hload : ascii "LI" ∉ loadStores := by decide
  have hjump : ascii "LI" ≠ ascii "J" ∧ ascii "LI" ≠ ascii "JAL" ∧ ascii "LI" ≠ ascii "JALR" := by
    decide
  have hcompare : comparingBranches.find? (·.name == ascii "LI") = none := rfl
  rw [instructionsOf, hname, hcompare]
  simp [htwo, hshift, hload, hjump]

theorem encodedAs_small {name : Bytes} {e : Instruction} (hfind : find? name = some e)
    (hfam : e.family = .normal) (hoperands : e.operands = [.rt, .rs, .imm])
    (htarget : RegisterFile.general.find? (bare target) = some r) :
    EncodedAs [c.withParts name [target, ascii ",$zero", hexOperand v.toNat]]
      [e.pack { rs := 0, rt := r, imm := v }] := by
  have hzero : RegisterFile.general.find? (bare (ascii ",$zero")) = some 0 := rfl
  refine .cons (fun labels index => ?_) .nil
  exact encode_arithmetic hfind hfam hoperands rfl htarget rfl hzero (hasMark_hexOperand _)
    (integerOperand_toNat v)

theorem integerOperand_half {fault : Fault} (x : BitVec 16) :
    integerOperand fault (bare (hexOperand x.toNat)) = .ok (x.setWidth 32) := by
  have hlt := x.isLt
  rw [integerOperand_hexOperand (by omega), BitVec.ofNat_toNat]

theorem setWidth_half (x : BitVec 16) : (x.setWidth 32).setWidth 16 = x := by
  rw [BitVec.setWidth_setWidth_of_le x (by decide), BitVec.setWidth_eq]

theorem encode_upperHalf (htarget : RegisterFile.general.find? (bare target) = some r)
    (x : BitVec 16) (labels : Labels) (index : Nat) :
    encode labels index (c.withParts (ascii "LUI") [target, hexOperand x.toNat]) =
      .ok (upperRow.pack { rt := r, imm := x.setWidth 32 }) :=
  encode_upper_eq rfl rfl htarget (hasMark_hexOperand _) (integerOperand_half x)

theorem encode_lowerHalf (htarget : RegisterFile.general.find? (bare target) = some r)
    (x : BitVec 16) (labels : Labels) (index : Nat) :
    encode labels index
      (c.withParts (ascii "ORI") [target, commaBefore target, hexOperand x.toNat]) =
      .ok (orRow.pack { rs := r, rt := r, imm := x.setWidth 32 }) :=
  encode_arithmetic find?_orRow rfl rfl rfl htarget rfl htarget (hasMark_hexOperand _)
    (integerOperand_half x)

/-- The instructions for a number are encoded as code that loads it. -/
theorem loadImmediate_loads {lines : List Command} (hargs : c.args = [target, value])
    (htarget : RegisterFile.general.find? (bare target) = some r) (hr : r ≠ 0)
    (h : loadImmediate c = .ok lines) :
    ∃ v code, Literal.integer (bare value) = .ok v ∧ EncodedAs lines code ∧ Loads code r v := by
  unfold loadImmediate at h
  rw [hargs] at h
  simp only at h
  cases hread : Argument.integerValue (bare value) with
  | error fault =>
    rw [hread] at h
    cases h
  | ok v =>
    rw [hread] at h
    obtain ⟨-, hvalue⟩ := Argument.of_literal_eq_ok hread
    refine ⟨v, ?_⟩
    simp only at h
    split at h
    · rename_i hrange
      simp only [Bool.and_eq_true, decide_eq_true_eq] at hrange
      obtain ⟨hlow, hhigh⟩ := hrange
      obtain rfl := Except.ok.inj h
      by_cases hneg : v.toInt < 0
      · rw [if_pos hneg]
        exact ⟨_, hvalue, encodedAs_small find?_addRow rfl rfl htarget, loads_add hr hlow hneg⟩
      · rw [if_neg hneg]
        exact ⟨_, hvalue, encodedAs_small find?_orRow rfl rfl htarget, loads_or hr (by omega) hhigh⟩
    · split at h
      · rename_i hzero
        obtain rfl := Except.ok.inj h
        have hlower : v.extractLsb' 0 16 = 0#16 := BitVec.eq_of_toNat_eq hzero
        exact ⟨_, hvalue, .cons (encode_upperHalf htarget _) .nil,
          loads_upper hr (setWidth_half _) hlower⟩
      · obtain rfl := Except.ok.inj h
        exact ⟨_, hvalue,
          .cons (encode_upperHalf htarget _) (.cons (encode_lowerHalf htarget _) .nil),
          loads_halves hr (setWidth_half _) (setWidth_half _)⟩

/-- **Loading a number loads it.** A line that loads an accepted number to a general register other
than `$zero` is assembled to one or two words, the same ones wherever it stands and whatever labels
are in front of it. Run with any numbers in the registers, they leave the sign extension of the
number in the register and change no other one. -/
theorem li_loads_number (c d : Command) (target value : Bytes) (r : BitVec 5) (lines : List Command)
    (hline : instruction? c = some d) (hname : d.name = ascii "LI")
    (hargs : d.args = [target, value])
    (htarget : RegisterFile.general.find? (bare target) = some r) (hr : r ≠ 0)
    (haccepted : loadImmediate d = .ok lines) :
    ∃ v code, Literal.integer (bare value) = .ok v ∧ HasCode c d code ∧ Loads code r v := by
  obtain ⟨v, code, hvalue, hencoded, hloads⟩ := loadImmediate_loads hargs htarget hr haccepted
  have hform : ∀ t, instructionsOf t d = .ok lines :=
    fun t => (instructionsOf_li hname).trans haccepted
  exact ⟨v, code, hvalue, hencoded.hasCode hline hform, hloads⟩

/-- A line with a label and a negative number that needs both halves. -/
def labelledLoad : Command := Command.ofLine (ascii "start: li $v0,-0x12345")

set_option maxRecDepth 8000 in
theorem li_loads_number_labelled :
    (assemble {} 0 [labelledLoad]).words = .ok [0x3C02FFFE, 0x3442DCBB] ∧
      Loads [0x3C02FFFE, 0x3442DCBB] 2 0xFFFEDCBB := by
  obtain ⟨v, code, hvalue, hcode, hloads⟩ :=
    li_loads_number labelledLoad _ (ascii "$v0") (ascii ",-0x12345") 2 _ rfl rfl rfl rfl
      (by decide) rfl
  obtain rfl : 0xFFFEDCBB = v := Except.ok.inj hvalue
  obtain rfl : [0x3C02FFFE, 0x3442DCBB] = code := Except.ok.inj (hcode.alone {} 0)
  exact ⟨by decide, hloads⟩

end CheatScript.Assembly
