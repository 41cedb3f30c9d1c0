import CheatScript.Instruction.Layout
import Mathlib.Tactic.Common

/-!
# Proofs: layouts of instruction words

A layout has a place for some of the fields, and packing looks at no others. What is packed there is
found there again, so a row of the table accepts every word packed from fields that its own operands
fill.
-/

namespace CheatScript

/-! ## The fields of a layout -/

namespace Family

/-- Whether a layout has a register field. -/
def hasSlot : Family → Slot → Bool
  | .special, _ | .mmi, _ | .mmi0, _ | .mmi1, _ | .mmi2, _ | .mmi3, _ | .fpuS, _
  | .cop2Special1, _ => true
  | .normal, s | .cop1, s | .cop2Special2, s => s != .rd
  | .fpuW, s => s != .rt
  | .cop2, s => s != .rs
  | .regImm, s | .pmthl, s => s == .rs
  | .pmfhl, s => s == .rd
  | .jump, _ | .bc0, _ | .bc1, _ | .cop0, _ | .tlbException, _ => false

/-- The lowest bit of a register field. -/
def slotAt (family : Family) : Slot → Nat
  | .rs => if family ∈ [.fpuS, .fpuW, .cop1, .cop2Special1, .cop2Special2] then 11 else 21
  | .rt => 16
  | .rd => if family ∈ [.fpuS, .fpuW, .cop2Special1] then 6 else 11

/-- Whether a layout has a shift amount. -/
def hasShift (family : Family) : Bool := family == .special || family == .mmi

/-- Whether a layout has a 16-bit immediate. -/
def hasImmediate (family : Family) : Bool :=
  family == .normal || family == .regImm || family == .bc1

end Family

/-- Two sets of fields with the same numbers, as far as a layout has a place for them. -/
structure Fields.SameNumbers (family : Family) (f g : Fields) : Prop where
  slot : ∀ s, family.hasSlot s = true → f.slot s = g.slot s
  shift : family.hasShift = true → f.sa = g.sa
  immediate : family.hasImmediate = true → f.imm.setWidth 16 = g.imm.setWidth 16
  target : family = .jump → f.imm.setWidth 26 = g.imm.setWidth 26

/-- The suffix is no number. -/
theorem Fields.SameNumbers.withSuffix {family : Family} {f g : Fields} (h : f.SameNumbers family g)
    {dest : BitVec 4} {interlock : BitVec 1} :
    Fields.SameNumbers family { f with dest := dest, interlock := interlock } g where
  slot s hs := by
    rw [← h.slot s hs]
    cases s <;> rfl
  shift hs := h.shift hs
  immediate hs := h.immediate hs
  target hs := h.target hs

namespace Instruction

variable {e : Instruction} {f g : Fields} {w : Word}

/-- Packing looks only at the fields its layout has. -/
theorem pack_congr (h : f.SameNumbers e.family g)
    (hdest : e.family.hasDest = true → f.dest = g.dest)
    (hlock : e.family = .cop2 → f.interlock = g.interlock) : e.pack f = e.pack g := by
  obtain ⟨hslot, hshift, himm, htarget⟩ := h
  have hrs : e.family.hasSlot .rs = true → f.rs = g.rs := hslot .rs
  have hrt : e.family.hasSlot .rt = true → f.rt = g.rt := hslot .rt
  have hrd : e.family.hasSlot .rd = true → f.rd = g.rd := hslot .rd
  clear hslot
  unfold pack
  cases hfam : e.family <;> simp_all [Family.hasSlot, Family.hasShift, Family.hasImmediate,
    Family.hasDest]

theorem rawFields_slot (family : Family) (w : Word) (s : Slot) :
    (rawFields family w).slot s = w.extractLsb' (family.slotAt s) 5 := by
  cases family <;> cases s <;> rfl

theorem rawFields_pack_slot {s : Slot} (h : e.family.hasSlot s = true) :
    (rawFields e.family (e.pack f)).slot s = f.slot s := by
  rw [rawFields_slot]
  unfold pack
  -- drop what lies below the field, then what lies above it
  cases hfam : e.family <;> rw [hfam] at h <;> cases s <;> first
    | exact absurd h (by decide)
    | (refine (BitVec.extractLsb'_append_eq_of_le (by decide)).trans ?_
       simp (disch := decide) only [BitVec.extractLsb'_append_eq_of_le,
         BitVec.extractLsb'_append_eq_of_add_le]
       exact BitVec.extractLsb'_eq_self)

theorem rawFields_pack_shift (h : e.family.hasShift = true) :
    (rawFields e.family (e.pack f)).sa = f.sa := by
  unfold pack
  cases hfam : e.family <;> rw [hfam] at h <;> first
    | exact absurd h (by decide)
    | (refine (BitVec.extractLsb'_append_eq_of_le (by decide)).trans ?_
       simp (disch := decide) only [BitVec.extractLsb'_append_eq_of_add_le]
       exact BitVec.extractLsb'_eq_self)

theorem setWidth_signExtend {n m : Nat} (h : n ≤ m) (x : BitVec n) :
    (x.signExtend m).setWidth n = x := by
  ext i hi
  have hwide : i < m := by omega
  simp [BitVec.getElem_signExtend, hi, hwide]

theorem rawFields_pack_immediate (h : e.family.hasImmediate = true) :
    (rawFields e.family (e.pack f)).imm.setWidth 16 = f.imm.setWidth 16 := by
  have hlow : (e.pack f).extractLsb' 0 16 = f.imm.setWidth 16 := by
    unfold pack
    cases hfam : e.family <;> rw [hfam] at h <;> first
      | exact absurd h (by decide)
      | exact (BitVec.extractLsb'_append_eq_of_add_le (by decide)).trans BitVec.extractLsb'_eq_self
  have hraw :
      (rawFields e.family (e.pack f)).imm = ((e.pack f).extractLsb' 0 16).signExtend 32 := by
    cases hfam : e.family <;> rw [hfam] at h <;> first
      | exact absurd h (by decide)
      | rfl
  rw [hraw, setWidth_signExtend (n := 16) (m := 32) (by decide), hlow]

theorem rawFields_pack_target (h : e.family = .jump) :
    (rawFields e.family (e.pack f)).imm.setWidth 26 = f.imm.setWidth 26 := by
  have hlow : (e.pack f).extractLsb' 0 26 = f.imm.setWidth 26 := by
    unfold pack
    rw [h]
    exact (BitVec.extractLsb'_append_eq_of_add_le (by decide)).trans BitVec.extractLsb'_eq_self
  have hraw : (rawFields e.family (e.pack f)).imm = ((e.pack f).extractLsb' 0 26).setWidth 32 := by
    rw [h]
    rfl
  rw [hraw, BitVec.setWidth_setWidth_of_le _ (by decide), BitVec.setWidth_eq, hlow]

theorem rawFields_pack_dest (h : e.family.hasDest = true) :
    (rawFields e.family (e.pack f)).dest = f.dest := by
  unfold pack
  cases hfam : e.family <;> rw [hfam] at h <;> first
    | exact absurd h (by decide)
    | (refine (BitVec.extractLsb'_append_eq_of_le (by decide)).trans ?_
       simp (disch := decide) only [BitVec.extractLsb'_append_eq_of_le,
         BitVec.extractLsb'_append_eq_of_add_le]
       exact BitVec.extractLsb'_eq_self)

theorem rawFields_pack_interlock (h : e.family = .cop2) :
    (rawFields e.family (e.pack f)).interlock = f.interlock := by
  unfold pack
  rw [h]
  exact (BitVec.extractLsb'_append_eq_of_add_le (by decide)).trans BitVec.extractLsb'_eq_self

/-- What a word packed from fields shows in its layout are these fields. -/
theorem sameNumbers_rawFields_pack (e : Instruction) (f : Fields) :
    (rawFields e.family (e.pack f)).SameNumbers e.family f where
  slot _ h := rawFields_pack_slot h
  shift h := rawFields_pack_shift h
  immediate h := rawFields_pack_immediate h
  target h := rawFields_pack_target h

end Instruction

/-! ## The fields operands fill -/

namespace Operand

/-- Whether an operand fills a register field. -/
def fillsSlot (o : Operand) (s : Slot) : Bool :=
  o.register?.map Prod.snd == some s || (o == .imm5 && s == .rd)

/-- Whether an operand fills the shift amount. -/
def fillsShift (o : Operand) : Bool := o == .shift

/-- Whether an operand fills the immediate. -/
def fillsImmediate (o : Operand) : Bool := o == .imm || o == .label

end Operand

namespace Fields

variable {f g start : Fields}

/-- The fields with all that some operands fill taken from `g`. -/
def fillAll (f g : Fields) (operands : List Operand) : Fields :=
  operands.foldl (fun f o => f.fill g o) f

theorem fill_slot (f g : Fields) (o : Operand) (s : Slot) :
    (f.fill g o).slot s = if o.fillsSlot s then g.slot s else f.slot s := by
  cases o <;> cases s <;> rfl

theorem fill_shift (f g : Fields) (o : Operand) :
    (f.fill g o).sa = if o.fillsShift then g.sa else f.sa := by
  cases o <;> rfl

theorem fill_immediate (f g : Fields) (o : Operand) :
    (f.fill g o).imm = if o.fillsImmediate then g.imm else f.imm := by
  cases o <;> rfl

/-- A field after a list of operands: from `g` if one of them fills it. -/
theorem fillAll_field {α : Type} (field : Fields → α) (fills : Operand → Bool)
    (hfill : ∀ f g o, field (f.fill g o) = if fills o then field g else field f)
    (f g : Fields) (operands : List Operand) :
    field (f.fillAll g operands) = if operands.any fills then field g else field f := by
  induction operands generalizing f with
  | nil => rfl
  | cons o operands ih =>
    have hstep : f.fillAll g (o :: operands) = (f.fill g o).fillAll g operands := rfl
    rw [hstep, ih, hfill, List.any_cons]
    cases fills o <;> cases operands.any fills <;> rfl

theorem fillAll_slot (f g : Fields) (operands : List Operand) (s : Slot) :
    (f.fillAll g operands).slot s =
      if operands.any (·.fillsSlot s) then g.slot s else f.slot s :=
  fillAll_field (·.slot s) (·.fillsSlot s) (fun f g o => fill_slot f g o s) f g operands

theorem fillAll_shift (f g : Fields) (operands : List Operand) :
    (f.fillAll g operands).sa = if operands.any (·.fillsShift) then g.sa else f.sa :=
  fillAll_field (·.sa) (·.fillsShift) fill_shift f g operands

theorem fillAll_immediate (f g : Fields) (operands : List Operand) :
    (f.fillAll g operands).imm = if operands.any (·.fillsImmediate) then g.imm else f.imm :=
  fillAll_field (·.imm) (·.fillsImmediate) fill_immediate f g operands

theorem fillAll_dest (f g : Fields) (operands : List Operand) :
    (f.fillAll g operands).dest = f.dest := by
  have hfill : ∀ f g o, (Fields.fill f g o).dest = if false then g.dest else f.dest := by
    intro f g o
    cases o <;> rfl
  rw [fillAll_field (·.dest) (fun _ => false) hfill f g operands]
  simp

theorem fillAll_interlock (f g : Fields) (operands : List Operand) :
    (f.fillAll g operands).interlock = f.interlock := by
  have hfill : ∀ f g o, (Fields.fill f g o).interlock = if false then
      g.interlock else f.interlock := by
    intro f g o
    cases o <;> rfl
  rw [fillAll_field (·.interlock) (fun _ => false) hfill f g operands]
  simp

end Fields

/-- Fields whose numbers are all zero but those that some operands fill. -/
structure Fields.FilledBy (operands : List Operand) (f : Fields) : Prop where
  slot : ∀ s, operands.any (·.fillsSlot s) = false → f.slot s = 0
  shift : operands.any (·.fillsShift) = false → f.sa = 0
  immediate : operands.any (·.fillsImmediate) = false → f.imm = 0

namespace Fields.FilledBy

variable {operands : List Operand} {f g start : Fields} {family : Family}

/-- Fields without numbers are filled by no operand. -/
theorem nil (hslot : ∀ s, f.slot s = 0) (hshift : f.sa = 0) (himm : f.imm = 0) : FilledBy [] f :=
  ⟨fun s _ => hslot s, fun _ => hshift, fun _ => himm⟩

theorem empty : FilledBy [] {} := nil (fun s => by cases s <;> rfl) rfl rfl

/-- One more operand. -/
theorem fill (h : FilledBy operands f) (g : Fields) (o : Operand) :
    FilledBy (operands ++ [o]) (f.fill g o) where
  slot s hany := by
    obtain ⟨hops, ho⟩ : operands.any (·.fillsSlot s) = false ∧ o.fillsSlot s = false := by
      simpa using hany
    rw [fill_slot, ho, if_neg Bool.false_ne_true, h.slot s hops]
  shift hany := by
    obtain ⟨hops, ho⟩ : operands.any (·.fillsShift) = false ∧ o.fillsShift = false := by
      simpa using hany
    rw [fill_shift, ho, if_neg Bool.false_ne_true, h.shift hops]
  immediate hany := by
    obtain ⟨hops, ho⟩ : operands.any (·.fillsImmediate) = false ∧ o.fillsImmediate = false := by
      simpa using hany
    rw [fill_immediate, ho, if_neg Bool.false_ne_true, h.immediate hops]

theorem fillAll (h : FilledBy operands f) (g : Fields) (more : List Operand) :
    FilledBy (operands ++ more) (f.fillAll g more) := by
  induction more generalizing operands f with
  | nil => rwa [List.append_nil]
  | cons o more ih =>
    have hstep := ih (h.fill g o)
    rwa [List.append_assoc] at hstep

/-- Filling in the operands from fields with the right numbers gives the right numbers. -/
theorem sameNumbers_fillAll (hf : FilledBy operands f) (hstart : FilledBy [] start)
    (h : g.SameNumbers family f) : (start.fillAll g operands).SameNumbers family f where
  slot s hs := by
    rw [fillAll_slot]
    cases hany : operands.any (·.fillsSlot s) with
    | true => exact h.slot s hs
    | false => simp [hstart.slot s rfl, hf.slot s hany]
  shift hs := by
    rw [fillAll_shift]
    cases hany : operands.any (·.fillsShift) with
    | true => exact h.shift hs
    | false => simp [hstart.shift rfl, hf.shift hany]
  immediate hs := by
    rw [fillAll_immediate]
    cases hany : operands.any (·.fillsImmediate) with
    | true => exact h.immediate hs
    | false => simp [hstart.immediate rfl, hf.immediate hany]
  target hs := by
    rw [fillAll_immediate]
    cases hany : operands.any (·.fillsImmediate) with
    | true => exact h.target hs
    | false => simp [hstart.immediate rfl, hf.immediate hany]

end Fields.FilledBy

namespace Instruction

variable {e : Instruction} {f : Fields} {w : Word}

/-- Where the reading of a word starts: with the suffix only. -/
def suffixFields (e : Instruction) (raw : Fields) : Fields :=
  { dest := if e.family.hasDest then raw.dest else 0
    interlock := if e.family = .cop2 then raw.interlock else 0 }

theorem unpack_eq (e : Instruction) (w : Word) :
    e.unpack w = (e.suffixFields (rawFields e.family w)).fillAll
      (rawFields e.family w) e.operands :=
  rfl

theorem suffixFields_filledBy (e : Instruction) (raw : Fields) : (e.suffixFields raw).FilledBy [] :=
  .nil (fun s => by cases s <;> rfl) rfl rfl

theorem unpack_filledBy (e : Instruction) (w : Word) : (e.unpack w).FilledBy e.operands := by
  rw [unpack_eq]
  exact (suffixFields_filledBy e _).fillAll _ e.operands

theorem unpack_dest (h : e.family.hasDest = false) (w : Word) : (e.unpack w).dest = 0 := by
  rw [unpack_eq, Fields.fillAll_dest, suffixFields, h]
  rfl

theorem unpack_interlock (h : e.family ≠ .cop2) (w : Word) : (e.unpack w).interlock = 0 := by
  rw [unpack_eq, Fields.fillAll_interlock, suffixFields, if_neg h]

/-- An instruction accepts the words packed from fields that its operands fill. -/
theorem accepts_pack (h : f.FilledBy e.operands) : e.accepts (e.pack f) = true := by
  have hsame : (e.unpack (e.pack f)).SameNumbers e.family f := by
    rw [unpack_eq]
    exact h.sameNumbers_fillAll (suffixFields_filledBy e _) (sameNumbers_rawFields_pack e f)
  have hpack : e.pack (e.unpack (e.pack f)) = e.pack f := by
    refine pack_congr hsame (fun hdest => ?_) (fun hlock => ?_)
    · rw [unpack_eq, Fields.fillAll_dest, suffixFields, if_pos hdest, rawFields_pack_dest hdest]
    · rw [unpack_eq, Fields.fillAll_interlock, suffixFields, if_pos hlock,
        rawFields_pack_interlock hlock]
  rw [accepts, hpack, beq_self_eq_true]

theorem pack_unpack (h : e.accepts w = true) : e.pack (e.unpack w) = w := by
  simpa [accepts] using h

/-! ## Reading a word -/

theorem foldl_prefer_mem {rows : List Instruction} {best : Option Instruction}
    (h : rows.foldl prefer best = some e) : best = some e ∨ e ∈ rows := by
  induction rows generalizing best with
  | nil => exact .inl h
  | cons row rows ih =>
    rcases ih h with hbest | hmem
    · have hchoice : best = some e ∨ row = e := by
        cases best with
        | none => exact .inr (Option.some.inj hbest)
        | some b =>
          rw [prefer] at hbest
          split at hbest
          · exact .inr (Option.some.inj hbest)
          · exact .inl hbest
      rcases hchoice with hbest | rfl
      · exact .inl hbest
      · exact .inr List.mem_cons_self
    · exact .inr (List.mem_cons_of_mem row hmem)

theorem foldl_prefer_isSome (rows : List Instruction) (b : Instruction) :
    (rows.foldl prefer (some b)).isSome = true := by
  induction rows generalizing b with
  | nil => rfl
  | cons row rows ih =>
    rw [List.foldl_cons, prefer]
    split
    · exact ih row
    · exact ih b

theorem accepts_of_ofWord? (h : ofWord? w = some e) : e ∈ table ∧ e.accepts w = true := by
  rcases foldl_prefer_mem h with hnone | hmem
  · cases hnone
  · exact List.mem_filter.1 hmem

theorem ofWord?_isSome (hmem : e ∈ table) (h : e.accepts w = true) : (ofWord? w).isSome = true := by
  have hfilter : e ∈ table.filter (·.accepts w) := List.mem_filter.2 ⟨hmem, h⟩
  unfold ofWord?
  obtain ⟨row, rows, hrows⟩ := List.exists_cons_of_ne_nil (List.ne_nil_of_mem hfilter)
  rw [hrows]
  exact foldl_prefer_isSome rows row

end Instruction

end CheatScript
