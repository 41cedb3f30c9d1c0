import CheatScript.Proofs.InstructionLayout
import CheatScript.Proofs.Outcome
import CheatScript.Proofs.PrintedNames

/-!
# Proofs: printed operands are read back

Every printed operand is read into the field it was printed from. An immediate that is printed
without its sign comes back with other upper bits, which no layout has a place for.
-/

namespace CheatScript

/-! ## The texts of operands -/

namespace Disassembly

variable {e : Instruction} {f : Fields} {pc : Word} {o : Operand}

theorem hexDigit_isPlain : ∀ d < 16, Byte.isPlain (Hex.digit d) = true := by decide

theorem digit_isPlain {c : UInt8} (h : Byte.isDigit c = true) : Byte.isPlain c = true := by
  simp [Byte.isPlain, h]

theorem fixed_isPlain (width n : Nat) : ∀ c ∈ Hex.fixed width n, Byte.isPlain c = true := by
  intro c hc
  obtain ⟨d, hd, rfl⟩ := Hex.mem_fixed hc
  exact hexDigit_isPlain d hd

theorem hexMark_isPlain {s : Bytes} (h : ∀ c ∈ s, Byte.isPlain c = true) :
    ∀ c ∈ ascii "0x" ++ s, Byte.isPlain c = true :=
  List.forall_mem_append.2 ⟨List.all_eq_true.1 (by decide), h⟩

theorem signedHex_isPlain (v : Int) : ∀ c ∈ signedHex v, Byte.isPlain c = true := by
  cases v with
  | ofNat n => exact hexMark_isPlain (fixed_isPlain _ n)
  | negSucc n =>
    exact List.forall_mem_append.2 ⟨List.all_eq_true.1 (by decide), fixed_isPlain _ (n + 1)⟩

theorem operandText_register {file : RegisterFile} {s : Slot} (h : o.register? = some (file, s)) :
    operandText e pc f o = file.nameOf (f.slot s) := by
  cases o <;> cases h <;> rfl

theorem operandText_isPlain (e : Instruction) (pc : Word) (f : Fields) (o : Operand) :
    ∀ c ∈ operandText e pc f o, Byte.isPlain c = true := by
  cases hreg : o.register? with
  | some place =>
    obtain ⟨file, s⟩ := place
    rw [operandText_register hreg]
    exact RegisterFile.nameOf_isPlain file _
  | none =>
    cases o with
    | shift => exact fun c hc => digit_isPlain (Decimal.isDigit_of_mem hc)
    | imm5 => exact hexMark_isPlain (fixed_isPlain _ _)
    | label => exact hexMark_isPlain (fixed_isPlain _ _)
    | imm =>
      rw [operandText]
      split
      · exact signedHex_isPlain _
      · exact hexMark_isPlain (fixed_isPlain _ _)
    | _ => cases hreg

theorem signedHex_ne_nil (v : Int) : signedHex v ≠ [] := by
  cases v <;> exact List.cons_ne_nil _ _

theorem operandText_ne_nil (e : Instruction) (pc : Word) (f : Fields) (o : Operand) :
    operandText e pc f o ≠ [] := by
  cases hreg : o.register? with
  | some place =>
    obtain ⟨file, s⟩ := place
    rw [operandText_register hreg]
    exact List.cons_ne_nil _ _
  | none =>
    cases o with
    | shift => exact Decimal.natural_ne_nil _
    | imm5 => exact List.cons_ne_nil _ _
    | label => exact List.cons_ne_nil _ _
    | imm =>
      rw [operandText]
      split
      · exact signedHex_ne_nil _
      · exact List.cons_ne_nil _ _
    | _ => cases hreg

/-- The text of one operand by itself: the offset of a load or store is printed with its sign. -/
def termText (e : Instruction) (pc : Word) (f : Fields) (o : Operand) : Bytes :=
  if o = .imm ∧ e.mnemonic ∈ Instruction.loadStores then signedHex f.imm.toInt
  else operandText e pc f o

theorem termText_isPlain (e : Instruction) (pc : Word) (f : Fields) (o : Operand) :
    ∀ c ∈ termText e pc f o, Byte.isPlain c = true := by
  rw [termText]
  split
  · exact signedHex_isPlain _
  · exact operandText_isPlain e pc f o

end Disassembly

/-! ## Reading one operand -/

namespace Assembly

open Disassembly

variable {e : Instruction} {f g h : Fields} {pc : Word} {o : Operand} {labels : Labels}
  {index : Nat} {fault : Fault}

theorem integerOperand_hex {n : Nat} (h : n < 2 ^ 32) :
    integerOperand fault (ascii "0x" ++ Hex.natural n) = .ok (BitVec.ofNat 32 n) :=
  Argument.literal_eq_ok (Literal.isInteger_hex (Hex.isHexDigits_natural h))
    (Literal.integer_hex (Hex.hexWord_natural h))

theorem integerOperand_decimal {n : Nat} (h : n < 2 ^ 31) :
    integerOperand fault (Decimal.natural n) = .ok (BitVec.ofNat 32 n) :=
  Argument.literal_eq_ok (Literal.isInteger_natural n) (Literal.integer_natural h)

/-- A word printed with its sign is read as the same word. -/
theorem integerOperand_signedHex (v : Word) : integerOperand fault (signedHex v.toInt) = .ok v := by
  have hbound : -2 ^ 31 ≤ v.toInt ∧ v.toInt < 2 ^ 31 := ⟨BitVec.le_toInt v, BitVec.toInt_lt⟩
  have hback : BitVec.ofInt 32 v.toInt = v := BitVec.ofInt_toInt
  generalize v.toInt = i at hbound hback
  subst hback
  cases i with
  | ofNat n =>
    have hn : n < 2 ^ 32 := by
      have := hbound.2
      simp only [Int.ofNat_eq_natCast] at this
      omega
    rw [signedHex, integerOperand_hex hn, Int.ofNat_eq_natCast, BitVec.ofInt_natCast]
  | negSucc n =>
    have hn : n + 1 < 2 ^ 32 := by
      have := hbound.1
      omega
    have hread : integerOperand fault (ascii "-0x" ++ Hex.natural (n + 1)) =
        .ok (-(BitVec.ofNat 32 (n + 1))) :=
      Argument.literal_eq_ok (Literal.isInteger_minusHex (Hex.isHexDigits_natural hn))
        (Literal.integer_minusHex (Hex.hexWord_natural hn))
    have hneg : Int.negSucc n = -((n + 1 : Nat) : Int) := rfl
    rw [signedHex, hread, hneg, BitVec.ofInt_neg, BitVec.ofInt_natCast]

theorem smallOperand_eq {s : Bytes} {r : BitVec 5}
    (h : integerOperand fault s = .ok (BitVec.ofNat 32 r.toNat)) :
    smallOperand fault s = .ok r := by
  have hlt := r.isLt
  have htoInt : (BitVec.ofNat 32 r.toNat).toInt = r.toNat := by
    rw [BitVec.toInt_eq_toNat_of_lt, BitVec.toNat_ofNat, Nat.mod_eq_of_lt (by omega)]
    rw [BitVec.toNat_ofNat, Nat.mod_eq_of_lt (by omega)]
    omega
  have hrange : (decide (0 ≤ (BitVec.ofNat 32 r.toNat).toInt) &&
      decide ((BitVec.ofNat 32 r.toNat).toInt ≤ 0x1F)) = true := by
    rw [htoInt, Bool.and_eq_true, decide_eq_true_iff, decide_eq_true_iff]
    omega
  have hwidth : (BitVec.ofNat 32 r.toNat).setWidth 5 = r := by
    rw [BitVec.ofNat_toNat, BitVec.setWidth_setWidth_of_le _ (by decide), BitVec.setWidth_eq]
  rw [smallOperand, h]
  show (if _ then _ else _) = _
  rw [if_pos hrange, hwidth]
  rfl

theorem readOperand_register {family : Family} {file : RegisterFile} {s : Slot} {text : Bytes}
    (hreg : o.register? = some (file, s)) :
    readOperand family labels index h o text = match file.find? text with
      | some r => .ok (h.setSlot s r)
      | none => .error .asmUnknownRegister := by
  cases o <;> cases hreg <;> rfl

theorem fill_register {file : RegisterFile} {s : Slot} (hreg : o.register? = some (file, s)) :
    h.fill g o = h.setSlot s (g.slot s) := by
  cases o <;> cases hreg <;> rfl

/-- The fields as they come back: an immediate printed without its sign is not negative. -/
def seen (e : Instruction) (f : Fields) : Fields :=
  { f with
    imm :=
      if e.mnemonic ∈ Instruction.loadStores ∨ e.mnemonic ∈ Instruction.signedImmediates then f.imm
      else (f.imm.setWidth 16).setWidth 32 }

theorem seen_slot (e : Instruction) (f : Fields) (s : Slot) : (seen e f).slot s = f.slot s := by
  cases s <;> rfl

theorem seen_sameNumbers (hjump : e.family ≠ .jump) : (seen e f).SameNumbers e.family f where
  slot s _ := seen_slot e f s
  shift _ := rfl
  immediate _ := by
    unfold seen
    dsimp only
    split
    · rfl
    · rw [BitVec.setWidth_setWidth_of_le _ (by decide), BitVec.setWidth_eq]
  target hfam := absurd hfam hjump

theorem integerOperand_immediate (e : Instruction) (pc : Word) (f : Fields) :
    integerOperand fault (termText e pc f .imm) = .ok (seen e f).imm := by
  by_cases hload : e.mnemonic ∈ Instruction.loadStores
  · rw [termText, if_pos ⟨rfl, hload⟩, integerOperand_signedHex, seen, if_pos (.inl hload)]
  · rw [termText, if_neg (fun hboth => hload hboth.2), operandText, seen]
    by_cases hsigned : e.mnemonic ∈ Instruction.signedImmediates
    · rw [if_pos hsigned, integerOperand_signedHex, if_pos (.inr hsigned)]
    · have hlt : (f.imm.setWidth 16).toNat < 2 ^ 32 := by
        have := (f.imm.setWidth 16).isLt
        omega
      rw [if_neg hsigned, integerOperand_hex hlt, if_neg (by simp [hload, hsigned]),
        BitVec.ofNat_toNat]

/-- A printed operand is read into the field it was printed from. -/
theorem readOperand_termText (hlabel : o ≠ .label)
    (hint : ∀ s, o.register? = some (.integer, s) → (f.slot s).toNat < 16) (h : Fields) :
    readOperand e.family labels index h o (termText e pc f o) = .ok (h.fill (seen e f) o) := by
  cases hreg : o.register? with
  | some place =>
    obtain ⟨file, s⟩ := place
    have himm : ¬ (o = .imm ∧ e.mnemonic ∈ Instruction.loadStores) := by
      rintro ⟨rfl, -⟩
      cases hreg
    have hsmall : file = .integer → (f.slot s).toNat < 16 := by
      rintro rfl
      exact hint s hreg
    rw [termText, if_neg himm, operandText_register hreg, readOperand_register hreg,
      RegisterFile.find?_nameOf hsmall, fill_register hreg, seen_slot]
  | none =>
    cases o with
    | shift =>
      have hlt := f.sa.isLt
      have hread : smallOperand .asmShiftAmountValueInvalid (termText e pc f .shift) = .ok f.sa :=
        smallOperand_eq (integerOperand_decimal (by omega))
      rw [readOperand, hread]
      rfl
    | imm5 =>
      have hlt := f.rd.isLt
      have hread : smallOperand .asmImmediateValueInvalid (termText e pc f .imm5) = .ok f.rd :=
        smallOperand_eq (integerOperand_hex (by omega))
      rw [readOperand, hread]
      rfl
    | label => exact absurd rfl hlabel
    | imm =>
      rw [readOperand, integerOperand_immediate]
      rfl
    | _ => cases hreg

/-! ## Reading all operands -/

theorem bare_of_isPlain {s : Bytes} (h : ∀ c ∈ s, Byte.isPlain c = true) : bare s = s := by
  have hcomma : s.dropWhile (· == Byte.comma) = s := by
    cases s with
    | nil => rfl
    | cons c s =>
      have hc := h c List.mem_cons_self
      have hne : (c == Byte.comma) = false := by
        rw [beq_eq_false_iff_ne]
        rintro rfl
        cases hc
      simp [hne]
  rw [bare, hcomma, Space.trim_of_isPlain h]

theorem bare_comma {s : Bytes} (h : ∀ c ∈ s, Byte.isPlain c = true) : bare (Byte.comma :: s) = s :=
  bare_of_isPlain h

/-- Operands whose texts are read into their fields one by one are read all together. -/
theorem readOperands_eq {family : Family} {text : Operand → Bytes} {operands : List Operand}
    (hplain : ∀ o, ∀ c ∈ text o, Byte.isPlain c = true)
    (hread : ∀ o ∈ operands, ∀ h, readOperand family labels index h o (text o) = .ok (h.fill g o)) :
    readOperands family labels index (operands.zip (Token.commaTerms (operands.map text))) =
      .ok (({} : Fields).fillAll g operands) := by
  cases operands with
  | nil => rfl
  | cons first rest =>
    have hrest : ∀ h : Fields, (rest.zip ((rest.map text).map (Byte.comma :: ·))).foldlM
        (readMarked family labels index) h = .ok (h.fillAll g rest) := by
      have hread' := fun o ho => hread o (List.mem_cons_of_mem first ho)
      clear hread
      induction rest with
      | nil => intro h; rfl
      | cons o rest ih =>
        intro h
        rw [List.map_cons, List.map_cons, List.zip_cons_cons, List.foldlM_cons]
        have hstep : readMarked family labels index h (o, Byte.comma :: text o) =
            .ok (h.fill g o) := by
          have hmark : Argument.hasMark Byte.comma (Byte.comma :: text o) = true := rfl
          rw [readMarked, if_pos hmark, bare_comma (hplain o), hread' o List.mem_cons_self h]
        rw [hstep]
        exact ih (fun o' ho' => hread' o' (List.mem_cons_of_mem o ho')) (h.fill g o)
    have hfirst : readOperand family labels index {} first (bare (text first)) =
        .ok (({} : Fields).fill g first) := by
      rw [bare_of_isPlain (hplain first), hread first List.mem_cons_self]
    rw [List.map_cons, Token.commaTerms, List.zip_cons_cons, readOperands, hfirst]
    exact hrest (({} : Fields).fill g first)

end Assembly

end CheatScript
