import CheatScript.Disassembly
import CheatScript.Proofs.InstructionLayout
import Mathlib.Tactic.Ring

/-!
# Proofs: words tell their instruction

The layouts share one space of words. The fixed bits of a word tell its family, and the family tells
where the opcode stands, so rows of the table that accept one word have the same family and opcode:
they are aliases, and differ in their operands only. A layout keeps the fields that have a place in
it, so reading a packed word gives back the fields it was packed from.
-/

namespace CheatScript

/-! ## Family and opcode of a word -/

namespace Word

/-- The number in `width` bits of a word from bit `start` on. -/
def bits (w : Word) (start width : Nat) : Nat := (w.extractLsb' start width).toNat

/-- The family of a float instruction, told by the five bits after the first six. -/
def floatFamily (w : Word) : Family := match w.bits 21 5 with
  | 0b10000 => .fpuS
  | 0b10100 => .fpuW
  | 0b01000 => .bc1
  | _ => .cop1

/-- The family of a vector instruction: one bit tells moves from arithmetic, four others the two
layouts of arithmetic. -/
def vectorFamily (w : Word) : Family :=
  if w.bits 25 1 = 0 then .cop2 else if w.bits 2 4 = 0b1111 then .cop2Special2 else .cop2Special1

/-- The family of a multimedia instruction, told by the last six bits. -/
def multimediaFamily (w : Word) : Family := match w.bits 0 6 with
  | 0b001000 => .mmi0
  | 0b101000 => .mmi1
  | 0b001001 => .mmi2
  | 0b101001 => .mmi3
  | 0b110000 => .pmfhl
  | 0b110001 => .pmthl
  | _ => .mmi

/-- The family that the fixed bits of a word tell. -/
def family (w : Word) : Family := match w.bits 26 6 with
  | 0b000000 => .special
  | 0b000001 => .regImm
  | 0b000010 | 0b000011 => .jump
  | 0b010001 => w.floatFamily
  | 0b010010 => w.vectorFamily
  | 0b011100 => w.multimediaFamily
  | _ => .normal

/-- The opcode of a word in the layout of a family. -/
def opcode (w : Word) : Family → Nat
  | .normal | .jump => w.bits 26 6
  | .special | .mmi | .fpuS | .fpuW | .cop2Special1 => w.bits 0 6
  | .regImm | .bc1 => w.bits 16 5
  | .mmi0 | .mmi1 | .mmi2 | .mmi3 | .pmfhl | .pmthl => w.bits 6 5
  | .cop1 | .cop2 => w.bits 21 5
  | .cop2Special2 => w.bits 6 5 * 4 + w.bits 0 2
  | .bc0 | .cop0 | .tlbException => 0

/-- Bits that a layout fills with one field. -/
theorem bits_eq {w : Word} {start width n : Nat} {x : BitVec width}
    (h : w.extractLsb' start width = x) (hx : x.toNat = n) : w.bits start width = n := by
  rw [bits, h, hx]

/-- The upper part of some bits. -/
theorem bits_add (w : Word) (start low width : Nat) :
    w.bits (start + low) width = w.bits start (low + width) / 2 ^ low := by
  simp only [bits, BitVec.extractLsb'_toNat, Nat.shiftRight_eq_div_pow]
  rw [Nat.pow_add 2 low, Nat.mod_mul_right_div_self, Nat.div_div_eq_div_mul, Nat.pow_add]

end Word

namespace Family

/-- The first number that is too large for an opcode of the family. -/
def opcodeEnd : Family → Nat
  | .normal | .special | .mmi | .fpuS | .fpuW => 64
  | .jump => 4
  | .regImm | .bc1 | .mmi0 | .mmi1 | .mmi2 | .mmi3 | .pmfhl | .pmthl | .cop1 => 32
  | .cop2 => 16
  | .cop2Special1 => 60
  | .cop2Special2 => 128
  | .bc0 | .cop0 | .tlbException => 0

/-- The numbers below it that are no opcodes of the family: in their place they tell other
families. -/
def takenOpcodes : Family → List Nat
  | .normal => [0b000000, 0b000001, 0b000010, 0b000011, 0b010001, 0b010010, 0b011100]
  | .jump => [0b000000, 0b000001]
  | .mmi => [0b001000, 0b101000, 0b001001, 0b101001, 0b110000, 0b110001]
  | .cop1 => [0b10000, 0b10100, 0b01000]
  | _ => []

end Family

namespace Instruction

variable {e e' : Instruction} {f g : Fields} {w : Word}

/-- A row whose opcode fits its place and leaves the family to be told. -/
def IsPlaced (e : Instruction) : Prop :=
  e.opcode < e.family.opcodeEnd ∧ e.opcode ∉ e.family.takenOpcodes

instance : DecidablePred IsPlaced := fun _ => inferInstanceAs (Decidable (_ ∧ _))

set_option maxRecDepth 8000 in
theorem table_placed : ∀ e ∈ table, IsPlaced e := by decide

theorem toNat_code {width : Nat} (h : e.opcode < 2 ^ width) : (e.code width).toNat = e.opcode := by
  rw [code, BitVec.toNat_ofNat, Nat.mod_eq_of_lt h]

/-- The first six bits. -/
def major (e : Instruction) : BitVec 6 := match e.family with
  | .normal | .jump => e.code 6
  | .regImm => 0b000001#6
  | .mmi | .mmi0 | .mmi1 | .mmi2 | .mmi3 | .pmfhl | .pmthl => 0b011100#6
  | .fpuS | .fpuW | .bc1 | .cop1 => 0b010001#6
  | .cop2 | .cop2Special1 | .cop2Special2 => 0b010010#6
  | .special | .bc0 | .cop0 | .tlbException => 0b000000#6

theorem extract_major (e : Instruction) (f : Fields) : (e.pack f).extractLsb' 26 6 = e.major := by
  unfold pack major
  cases e.family <;> dsimp only
  case bc0 | cop0 | tlbException => rfl
  case jump =>
    exact (BitVec.extractLsb'_append_eq_of_le (by decide)).trans BitVec.extractLsb'_eq_self
  all_goals
    refine (BitVec.extractLsb'_append_eq_of_le (by decide)).trans ?_
    simp (disch := decide) only [BitVec.extractLsb'_append_eq_of_le]
    exact BitVec.extractLsb'_eq_self

/-- The five bits after them, in a coprocessor instruction without destination mask. -/
def format (e : Instruction) : BitVec 5 := match e.family with
  | .fpuS => 0b10000#5
  | .fpuW => 0b10100#5
  | .bc1 => 0b01000#5
  | _ => e.code 5

theorem extract_format (h : e.family ∈ [.fpuS, .fpuW, .bc1, .cop1, .cop2]) (f : Fields) :
    (e.pack f).extractLsb' 21 5 = e.format := by
  unfold pack format
  cases hfam : e.family <;> rw [hfam] at h <;> first
    | exact absurd h (by decide)
    | (refine (BitVec.extractLsb'_append_eq_of_le (by decide)).trans ?_
       simp (disch := decide) only [BitVec.extractLsb'_append_eq_of_le,
         BitVec.extractLsb'_append_eq_of_add_le]
       exact BitVec.extractLsb'_eq_self)

/-- The last six bits, in a layout that ends with a function. -/
def function (e : Instruction) : BitVec 6 := match e.family with
  | .mmi0 | .mmi1 | .mmi2 | .mmi3 => subTable e.family
  | .pmfhl => 0b110000#6
  | .pmthl => 0b110001#6
  | _ => e.code 6

theorem extract_function
    (h : e.family ∈ [.special, .fpuS, .fpuW, .cop2Special1, .mmi, .mmi0, .mmi1, .mmi2,
    .mmi3, .pmfhl, .pmthl]) (f : Fields) : (e.pack f).extractLsb' 0 6 = e.function := by
  unfold pack function
  cases hfam : e.family <;> rw [hfam] at h <;> first
    | exact absurd h (by decide)
    | exact (BitVec.extractLsb'_append_eq_of_add_le (by decide)).trans BitVec.extractLsb'_eq_self

/-- The opcode is found in its place. -/
theorem opcode_pack (h : e.IsPlaced) (f : Fields) : (e.pack f).opcode e.family = e.opcode := by
  have hend := h.1
  cases hfam : e.family <;> simp only [hfam, Family.opcodeEnd, Word.opcode] at hend ⊢
  case bc0 | cop0 | tlbException => cases hend
  case normal | jump =>
    refine Word.bits_eq (extract_major e f) ?_
    simp only [major, hfam]
    exact toNat_code (by omega)
  case special | mmi | fpuS | fpuW | cop2Special1 =>
    refine Word.bits_eq (extract_function (by rw [hfam]; decide) f) ?_
    simp only [function, hfam]
    exact toNat_code (by omega)
  case cop1 | cop2 =>
    refine Word.bits_eq (extract_format (by rw [hfam]; decide) f) ?_
    simp only [format, hfam]
    exact toNat_code (by omega)
  case cop2Special2 =>
    -- this opcode stands in two places
    have hlow : ((e.code 7).extractLsb' 0 2).toNat = e.opcode % 4 := by
      rw [BitVec.extractLsb'_toNat, toNat_code hend]
      rfl
    have hhigh : ((e.code 7).extractLsb' 2 5).toNat = e.opcode / 4 := by
      rw [BitVec.extractLsb'_toNat, toNat_code hend, Nat.shiftRight_eq_div_pow]
      exact Nat.mod_eq_of_lt (by omega)
    unfold pack
    simp only [hfam]
    rw [Word.bits_eq ?_ hlow, Word.bits_eq ?_ hhigh]
    · omega
    · refine (BitVec.extractLsb'_append_eq_of_le (by decide)).trans ?_
      simp (disch := decide) only [BitVec.extractLsb'_append_eq_of_le,
        BitVec.extractLsb'_append_eq_of_add_le]
      exact BitVec.extractLsb'_eq_self
    · exact (BitVec.extractLsb'_append_eq_of_add_le (by decide)).trans BitVec.extractLsb'_eq_self
  all_goals
    refine Word.bits_eq ?_ (toNat_code (by omega))
    unfold pack
    simp only [hfam]
    refine (BitVec.extractLsb'_append_eq_of_le (by decide)).trans ?_
    simp (disch := decide) only [BitVec.extractLsb'_append_eq_of_add_le]
    exact BitVec.extractLsb'_eq_self

theorem floatFamily_pack (h : e.IsPlaced) (hfam : e.family ∈ [.fpuS, .fpuW, .bc1, .cop1])
    (f : Fields) : (e.pack f).floatFamily = e.family := by
  obtain ⟨hend, hfree⟩ := h
  have hformat : e.family ∈ [.fpuS, .fpuW, .bc1, .cop1, .cop2] := by
    simp only [List.mem_cons] at hfam ⊢
    tauto
  rw [Word.floatFamily, Word.bits, extract_format hformat, format]
  cases hcase : e.family <;> rw [hcase] at hfam hend hfree
  case fpuS | fpuW | bc1 => rfl
  case cop1 =>
    simp only [Family.opcodeEnd, Family.takenOpcodes] at hend hfree ⊢
    rw [toNat_code hend]
    split <;> simp_all
  all_goals exact absurd hfam (by decide)

theorem multimediaFamily_pack (h : e.IsPlaced)
    (hfam : e.family ∈ [.mmi, .mmi0, .mmi1, .mmi2, .mmi3, .pmfhl, .pmthl]) (f : Fields) :
    (e.pack f).multimediaFamily = e.family := by
  obtain ⟨hend, hfree⟩ := h
  have hfunction : e.family ∈ [.special, .fpuS, .fpuW, .cop2Special1, .mmi, .mmi0, .mmi1, .mmi2,
      .mmi3, .pmfhl, .pmthl] := by
    simp only [List.mem_cons] at hfam ⊢
    tauto
  rw [Word.multimediaFamily, Word.bits, extract_function hfunction, function]
  cases hcase : e.family <;> rw [hcase] at hfam hend hfree
  case mmi0 | mmi1 | mmi2 | mmi3 | pmfhl | pmthl => rfl
  case mmi =>
    simp only [Family.opcodeEnd, Family.takenOpcodes] at hend hfree ⊢
    rw [toNat_code hend]
    split <;> simp_all
  all_goals exact absurd hfam (by decide)

theorem extract_arithmetic (h : e.family.hasDest = true) (f : Fields) :
    (e.pack f).extractLsb' 25 1 = 1#1 := by
  unfold pack
  cases hfam : e.family <;> rw [hfam] at h <;> first
    | exact absurd h (by decide)
    | (refine (BitVec.extractLsb'_append_eq_of_le (by decide)).trans ?_
       simp (disch := decide) only [BitVec.extractLsb'_append_eq_of_le,
         BitVec.extractLsb'_append_eq_of_add_le]
       exact BitVec.extractLsb'_eq_self)

theorem vectorFamily_pack (h : e.IsPlaced) (hfam : e.family ∈ [.cop2, .cop2Special1, .cop2Special2])
    (f : Fields) : (e.pack f).vectorFamily = e.family := by
  have hop := opcode_pack h f
  have hend := h.1
  cases hcase : e.family <;> rw [hcase] at hfam hend hop
  case cop2 =>
    have hmove : (e.pack f).bits 25 1 = 0 := by
      rw [Word.bits_add _ 21 4 1, show (e.pack f).bits 21 5 = e.opcode from hop]
      exact Nat.div_eq_of_lt hend
    rw [Word.vectorFamily, if_pos hmove]
  case cop2Special1 =>
    have hbit : (e.pack f).bits 25 1 = 1 :=
      Word.bits_eq (extract_arithmetic (by rw [hcase]; rfl) f) rfl
    have hlayout : (e.pack f).bits 2 4 ≠ 0b1111 := by
      rw [Word.bits_add _ 0 2 4, show (e.pack f).bits 0 6 = e.opcode from hop]
      simp only [Family.opcodeEnd] at hend
      omega
    rw [Word.vectorFamily, if_neg (by omega), if_neg hlayout]
  case cop2Special2 =>
    have hbit : (e.pack f).bits 25 1 = 1 :=
      Word.bits_eq (extract_arithmetic (by rw [hcase]; rfl) f) rfl
    have hlayout : (e.pack f).bits 2 4 = 0b1111 := by
      refine Word.bits_eq (x := 0b1111#4) ?_ rfl
      unfold pack
      simp only [hcase]
      refine (BitVec.extractLsb'_append_eq_of_le (by decide)).trans ?_
      simp (disch := decide) only [BitVec.extractLsb'_append_eq_of_add_le]
      exact BitVec.extractLsb'_eq_self
    rw [Word.vectorFamily, if_neg (by omega), if_pos hlayout]
  all_goals exact absurd hfam (by decide)

/-- A word tells the family it was packed for. -/
theorem family_pack (h : e.IsPlaced) (f : Fields) : (e.pack f).family = e.family := by
  have hend := h.1
  have hfree := h.2
  rw [Word.family, Word.bits, extract_major, major]
  cases hfam : e.family
  case special | regImm => rfl
  case normal =>
    simp only [hfam, Family.opcodeEnd, Family.takenOpcodes] at hend hfree ⊢
    rw [toNat_code hend]
    split <;> simp_all
  case jump =>
    simp only [hfam, Family.opcodeEnd, Family.takenOpcodes] at hend hfree ⊢
    have hcases : e.opcode = 2 ∨ e.opcode = 3 := by
      simp only [List.mem_cons, List.not_mem_nil, or_false, not_or] at hfree
      omega
    rw [toNat_code (by omega)]
    rcases hcases with hop | hop
    · rw [hop]
      rfl
    · rw [hop]
      rfl
  case fpuS | fpuW | bc1 | cop1 => exact (floatFamily_pack h (by rw [hfam]; decide) f).trans hfam
  case cop2 | cop2Special1 | cop2Special2 =>
    exact (vectorFamily_pack h (by rw [hfam]; decide) f).trans hfam
  case bc0 | cop0 | tlbException => rw [hfam] at hend; cases hend
  all_goals exact (multimediaFamily_pack h (by rw [hfam]; decide) f).trans hfam

/-- Rows that accept the same word are aliases. -/
theorem alias_of_accepts (he : e ∈ table) (he' : e' ∈ table) (h : e.accepts w = true)
    (h' : e'.accepts w = true) : e.family = e'.family ∧ e.opcode = e'.opcode := by
  have hfam : w.family = e.family := by
    rw [← family_pack (table_placed e he) (e.unpack w), pack_unpack h]
  have hfam' : w.family = e'.family := by
    rw [← family_pack (table_placed e' he') (e'.unpack w), pack_unpack h']
  have hop : w.opcode e.family = e.opcode := by
    rw [← opcode_pack (table_placed e he) (e.unpack w), pack_unpack h]
  have hop' : w.opcode e'.family = e'.opcode := by
    rw [← opcode_pack (table_placed e' he') (e'.unpack w), pack_unpack h']
  have hsame : e.family = e'.family := hfam.symm.trans hfam'
  exact ⟨hsame, by rw [← hop, ← hop', hsame]⟩

/-- Aliases are packed alike. -/
theorem pack_alias (hfam : e.family = e'.family) (hop : e.opcode = e'.opcode) (f : Fields) :
    e.pack f = e'.pack f := by
  have hcode : e.code = e'.code := by
    funext width
    rw [code, code, hop]
  unfold pack
  rw [hcode, hfam]

end Instruction

/-! ## Fields that a layout keeps -/

/-- Whether the layout of a family has a place for what an operand fills. -/
def Operand.hasPlace (family : Family) (o : Operand) : Bool :=
  [Slot.rs, .rt, .rd].all (fun s => !o.fillsSlot s || family.hasSlot s)
    && (!o.fillsShift || family.hasShift)
    && (!o.fillsImmediate || family.hasImmediate || family == .jump)

/-- Fields that a layout keeps: each has a place that it fits, or is zero. -/
structure Fields.Kept (family : Family) (f : Fields) : Prop where
  slot : ∀ s, family.hasSlot s = false → f.slot s = 0
  shift : family.hasShift = false → f.sa = 0
  immediate : family.hasImmediate = true → f.imm = (f.imm.setWidth 16).signExtend 32
  target : family = .jump → f.imm = (f.imm.setWidth 26).setWidth 32
  noNumber : family.hasImmediate = false → family ≠ .jump → f.imm = 0
  dest : family.hasDest = false → f.dest = 0
  interlock : family ≠ .cop2 → f.interlock = 0

namespace Instruction

variable {e e' : Instruction} {f f' g : Fields} {w : Word}

/-- A layout tells the fields it keeps apart. -/
theorem pack_injective (hf : f.Kept e.family) (hg : g.Kept e.family) (h : e.pack f = e.pack g) :
    f = g := by
  have hslot : ∀ s, f.slot s = g.slot s := by
    intro s
    cases hs : e.family.hasSlot s with
    | false => rw [hf.slot s hs, hg.slot s hs]
    | true => rw [← rawFields_pack_slot hs, h, rawFields_pack_slot hs]
  have hshift : f.sa = g.sa := by
    cases hs : e.family.hasShift with
    | false => rw [hf.shift hs, hg.shift hs]
    | true => rw [← rawFields_pack_shift hs, h, rawFields_pack_shift hs]
  have himm : f.imm = g.imm := by
    by_cases hjump : e.family = .jump
    · rw [hf.target hjump, hg.target hjump, ← rawFields_pack_target hjump, h,
        rawFields_pack_target hjump]
    · cases hs : e.family.hasImmediate with
      | false => rw [hf.noNumber hs hjump, hg.noNumber hs hjump]
      | true =>
        rw [hf.immediate hs, hg.immediate hs, ← rawFields_pack_immediate hs, h,
          rawFields_pack_immediate hs]
  have hdest : f.dest = g.dest := by
    cases hs : e.family.hasDest with
    | false => rw [hf.dest hs, hg.dest hs]
    | true => rw [← rawFields_pack_dest hs, h, rawFields_pack_dest hs]
  have hlock : f.interlock = g.interlock := by
    by_cases hs : e.family = .cop2
    · rw [← rawFields_pack_interlock hs, h, rawFields_pack_interlock hs]
    · rw [hf.interlock hs, hg.interlock hs]
  have hrs := hslot .rs
  have hrt := hslot .rt
  have hrd := hslot .rd
  cases f
  cases g
  simp_all [Fields.slot]

set_option maxRecDepth 8000 in
theorem table_hasPlace : ∀ e ∈ table, e.operands.all (·.hasPlace e.family) = true := by decide

/-- A register field that the layout lacks is filled by no operand. -/
theorem slot_eq_zero (he : e ∈ table) (h : f.FilledBy e.operands) {s : Slot}
    (hs : e.family.hasSlot s = false) : f.slot s = 0 := by
  refine h.slot s (List.any_eq_false.2 fun o ho hfill => ?_)
  have hplace := List.all_eq_true.1 (table_hasPlace e he) o ho
  cases s <;> simp [Operand.hasPlace, hfill, hs] at hplace

theorem shift_eq_zero (he : e ∈ table) (h : f.FilledBy e.operands)
    (hs : e.family.hasShift = false) : f.sa = 0 := by
  refine h.shift (List.any_eq_false.2 fun o ho hfill => ?_)
  have hplace := List.all_eq_true.1 (table_hasPlace e he) o ho
  simp [Operand.hasPlace, hfill, hs] at hplace

theorem immediate_eq_zero (he : e ∈ table) (h : f.FilledBy e.operands)
    (hs : e.family.hasImmediate = false) (hjump : e.family ≠ .jump) : f.imm = 0 := by
  refine h.immediate (List.any_eq_false.2 fun o ho hfill => ?_)
  have hplace := List.all_eq_true.1 (table_hasPlace e he) o ho
  simp [Operand.hasPlace, hfill, hs, hjump] at hplace

theorem eq_signExtend {x : Word} (hlow : -0x8000 ≤ x.toInt) (hhigh : x.toInt < 0x8000) :
    x = (x.setWidth 16).signExtend 32 := by
  apply BitVec.eq_of_toInt_eq
  rw [BitVec.toInt_signExtend_of_le (by decide)]
  have hlt := x.isLt
  have hx := BitVec.toInt_eq_toNat_cond x
  have hy := BitVec.toInt_eq_toNat_cond (x.setWidth 16)
  rw [BitVec.toNat_setWidth] at hy
  split at hx <;> split at hy <;> omega

theorem eq_zeroExtend {x : Word} (h : x.toNat < 0x4000000) : x = (x.setWidth 26).setWidth 32 := by
  apply BitVec.eq_of_toNat_eq
  rw [BitVec.toNat_setWidth, BitVec.toNat_setWidth]
  omega

/-- What reading gives is kept. -/
theorem unpack_kept (he : e ∈ table) (w : Word) : (e.unpack w).Kept e.family where
  slot _ hs := slot_eq_zero he (unpack_filledBy e w) hs
  shift hs := shift_eq_zero he (unpack_filledBy e w) hs
  immediate hs := by
    rw [unpack_eq, Fields.fillAll_immediate]
    split
    · have hraw : (rawFields e.family w).imm = (w.extractLsb' 0 16).signExtend 32 := by
        cases hfam : e.family <;> rw [hfam] at hs <;> first
          | exact absurd hs (by decide)
          | rfl
      rw [hraw, setWidth_signExtend (n := 16) (m := 32) (by decide)]
    · rfl
  target hjump := by
    rw [unpack_eq, Fields.fillAll_immediate]
    split
    · have hraw : (rawFields e.family w).imm = (w.extractLsb' 0 26).setWidth 32 := by
        rw [hjump]
        rfl
      rw [hraw]
      refine eq_zeroExtend ?_
      rw [BitVec.toNat_setWidth]
      exact Nat.lt_of_le_of_lt (Nat.mod_le _ _) (w.extractLsb' 0 26).isLt
    · rfl
  noNumber hs hjump := immediate_eq_zero he (unpack_filledBy e w) hs hjump
  dest hs := unpack_dest hs w
  interlock hs := unpack_interlock hs w

/-- Values for the operands of an instruction, in range: its immediate is a signed number of 16 bits
or a jump target of 26 bits. What it does not use is zero. -/
structure InRange (e : Instruction) (f : Fields) : Prop where
  filled : f.FilledBy e.operands
  immediate : e.family ≠ .jump → -0x8000 ≤ f.imm.toInt ∧ f.imm.toInt < 0x8000
  target : e.family = .jump → f.imm.toNat < 0x4000000
  dest : e.family.hasDest = false → f.dest = 0
  interlock : e.family ≠ .cop2 → f.interlock = 0

theorem InRange.kept (he : e ∈ table) (h : InRange e f) : f.Kept e.family where
  slot _ hs := slot_eq_zero he h.filled hs
  shift hs := shift_eq_zero he h.filled hs
  immediate hs := by
    have hjump : e.family ≠ .jump := by
      intro hjump
      rw [hjump] at hs
      cases hs
    obtain ⟨hlow, hhigh⟩ := h.immediate hjump
    exact eq_signExtend hlow hhigh
  target hjump := eq_zeroExtend (h.target hjump)
  noNumber hs hjump := immediate_eq_zero he h.filled hs hjump
  dest hs := h.dest hs
  interlock hs := h.interlock hs

/-! ## Decoding packed words -/

/-- A packed word is read as an alias with the same fields. -/
theorem decode_eq_of_inRange (he : e ∈ table) (h : InRange e f) (pc : Word) :
    ∃ row ∈ table, row.family = e.family ∧ row.opcode = e.opcode ∧
      decode (e.pack f) pc = ⟨pc, e.pack f, some row, f⟩ := by
  have haccepts := accepts_pack h.filled
  obtain ⟨row, hrow⟩ := Option.isSome_iff_exists.1 (ofWord?_isSome he haccepts)
  obtain ⟨hmem, hrowAccepts⟩ := accepts_of_ofWord? hrow
  obtain ⟨hfam, hop⟩ := alias_of_accepts hmem he hrowAccepts haccepts
  have hpack : e.pack (row.unpack (e.pack f)) = e.pack f := by
    rw [← pack_alias hfam hop, pack_unpack hrowAccepts]
  have hfields : row.unpack (e.pack f) = f :=
    pack_injective (hfam ▸ unpack_kept hmem (e.pack f)) (h.kept he) hpack
  refine ⟨row, hmem, hfam, hop, ?_⟩
  rw [decode, hrow]
  simp only [hfields]

/-- **Decoding inverts packing.** The word of an instruction with operands in range is read as a row
of its family and opcode, with exactly these fields. So two instructions have a word in common only
if they are aliases, and then with the same fields. -/
theorem decode_pack :
    (∀ e ∈ table, ∀ f, InRange e f → ∀ pc, ∃ row ∈ table, row.family = e.family ∧
      row.opcode = e.opcode ∧ decode (e.pack f) pc = ⟨pc, e.pack f, some row, f⟩) ∧
    ∀ e ∈ table, ∀ e' ∈ table, ∀ f f', InRange e f → InRange e' f' → e.pack f = e'.pack f' →
      e.family = e'.family ∧ e.opcode = e'.opcode ∧ f = f' := by
  constructor
  · intro e he f h pc
    exact decode_eq_of_inRange he h pc
  · intro e he e' he' f f' h h' hword
    obtain ⟨row, -, hfam, hop, hdecode⟩ := decode_eq_of_inRange he h 0
    obtain ⟨row', -, hfam', hop', hdecode'⟩ := decode_eq_of_inRange he' h' 0
    rw [← hword, hdecode] at hdecode'
    simp only [Decoded.mk.injEq, Option.some.injEq, true_and] at hdecode'
    obtain ⟨rfl, rfl⟩ := hdecode'
    exact ⟨hfam.symm.trans hfam', hop.symm.trans hop', rfl⟩

/-- A branch to the word before it if `$a0` is zero, in its short form. -/
def shortBranch : Instruction := entry "BEQZ" .normal 0b000100 [.rs, .label]

theorem shortBranch_inRange : InRange shortBranch { rs := 4, imm := -2 } where
  filled := {
    slot := fun s hs => by
      cases s with
      | rs => cases hs
      | rt => rfl
      | rd => rfl
    shift := fun _ => rfl
    immediate := fun hs => by cases hs }
  immediate _ := by decide
  target hjump := by cases hjump
  dest _ := rfl
  interlock _ := rfl

theorem decode_pack_shortBranch :
    InRange shortBranch { rs := 4, imm := -2 } ∧
      ∃ row ∈ table, row.family = .normal ∧ row.opcode = 0b000100 ∧
        decode 0x1080FFFE#32 0x100 = ⟨0x100, 0x1080FFFE#32, some row, { rs := 4, imm := -2 }⟩ :=
  ⟨shortBranch_inRange,
    decode_pack.1 shortBranch (List.mem_of_getElem? (i := 8) rfl) _ shortBranch_inRange 0x100⟩

end Instruction

end CheatScript
