import CheatScript.Proofs.BranchTargets
import CheatScript.Proofs.RegisterMachine

/-!
# Proofs: loads and stores reach their address

A load or store may give a bare address in place of an offset and a base. It becomes one access to
an offset from `$zero`, or an access to the lower half of the address after its upper half was
loaded. The lower half is a signed offset, so the upper half is one more where it is negative. As
addresses are compared as signed numbers, those from `0x80000000` on count as small, and of these
only the last `0x8000` are reached.
-/

namespace CheatScript

/-! ## The text of an operand -/

namespace Assembly

open Instruction

variable {t : DefinitionTable} {c : Command} {labels : Labels} {index : Nat}

theorem opening_not_mem {place : Bytes} (h : Literal.isAddress (bare place) = true) :
    Byte.opening ∉ place := by
  intro hmem
  have hdrop : Byte.opening ∈ place.dropWhile (· == Byte.comma) := by
    rw [← List.takeWhile_append_dropWhile (p := (· == Byte.comma)) (l := place)] at hmem
    rcases List.mem_append.1 hmem with hcommas | hrest
    · exact absurd (List.all_eq_true.1 List.all_takeWhile _ hcommas) (by decide)
    · exact hrest
  have hbare : Byte.opening ∈ bare place := Space.mem_trim (by decide) hdrop
  -- a parenthesis is neither a sign nor part of the mark nor a digit
  exact absurd (Literal.mem_of_isAddress h _ hbare) (by decide)

/-- A load or store that is given an address. -/
theorem access_bare {target place : Bytes} (hargs : c.args = [target, place])
    (h : Literal.isAddress (bare place) = true) : access t c = absoluteAccess c target place := by
  rw [access, hargs]
  simp only [Bytes.cut?_eq_none (opening_not_mem h)]

/-! ## Rows -/

/-- What the rows of loads and stores have in common: a register, an offset and a base. The register
is a general one unless `$at` has to hold the address. -/
structure IsAccess (name : Bytes) (e : Instruction) (file : RegisterFile) (o : Operand) : Prop where
  found : find? name = some e
  family : e.family = .normal
  operands : e.operands = [o, .imm, .rs]
  register : o.register? = some (file, .rt)
  general : name ∉ viaAt → file = .general

set_option maxRecDepth 8000 in
theorem exists_isAccess {name : Bytes} (h : name ∈ loadStores) : ∃ e file o,
    IsAccess name e file o := by
  have hrows : loadStores.all (fun name => (find? name).any fun e =>
      [Operand.rt, .ft, .vft].any fun o =>
        decide (e.family = .normal) && decide (e.operands = [o, .imm, .rs]) &&
          (decide (name ∈ viaAt) || decide (o = .rt))) = true := by decide
  have hrow := List.all_eq_true.1 hrows name h
  rw [Option.any_eq_true] at hrow
  obtain ⟨e, hfind, hrow⟩ := hrow
  obtain ⟨o, ho, hrow⟩ := List.any_eq_true.1 hrow
  simp only [Bool.and_eq_true, Bool.or_eq_true, decide_eq_true_eq] at hrow
  obtain ⟨⟨hfam, hops⟩, hvia⟩ := hrow
  simp only [List.mem_cons, List.not_mem_nil, or_false] at ho
  rcases ho with rfl | rfl | rfl
  · exact ⟨e, .general, _, hfind, hfam, hops, rfl, fun _ => rfl⟩
  · exact ⟨e, .float, _, hfind, hfam, hops, rfl, fun hnot => by simp [hnot] at hvia⟩
  · exact ⟨e, .vector, _, hfind, hfam, hops, rfl, fun hnot => by simp [hnot] at hvia⟩

/-- The row that loads the upper half of a register. -/
def upperRow : Instruction := entry "LUI" .normal 0b001111 [.rt, .imm]

theorem find?_upperRow : find? (ascii "LUI") = some upperRow := rfl

/-! ## Words -/

theorem readOperand_imm {family : Family} {f g : Fields} {s : Bytes}
    (h : readOperand family labels index f .imm s = .ok g) :
    ∃ v, integerOperand .asmImmediateValueInvalid s = .ok v ∧ g = { f with imm := v } := by
  obtain ⟨v, hv, hg⟩ := Outcome.bind_eq_ok.1 h
  obtain rfl := Outcome.pure_eq_ok.1 hg
  exact ⟨v, hv, rfl⟩

theorem readOperand_slot {family : Family} {f g : Fields} {o : Operand} {file : RegisterFile}
    {slot : Slot} {s : Bytes} (ho : o.register? = some (file, slot))
    (h : readOperand family labels index f o s = .ok g) :
    ∃ r, file.find? s = some r ∧ g = f.setSlot slot r := by
  rw [readOperand_register ho] at h
  cases hfind : file.find? s with
  | none => simp [hfind] at h
  | some r =>
    rw [hfind] at h
    obtain rfl := Except.ok.inj h
    exact ⟨r, rfl, rfl⟩

theorem readMarked_eq_ok {family : Family} {f g : Fields} {o : Operand} {s : Bytes}
    (h : readMarked family labels index f (o, s) = .ok g) :
    readOperand family labels index f o (bare s) = .ok g := by
  rw [readMarked] at h
  split at h
  · exact h
  · cases h

theorem pack_of_encode {e : Instruction} {w : Word} (hfind : find? c.name = some e)
    (hfam : e.family = .normal) (h : encode labels index c = .ok w) :
    ∃ f, readOperands e.family labels index (e.operands.zip c.args) = .ok f ∧ w = e.pack f := by
  obtain ⟨row, f, g, hrow, -, hops, hsuffix, rfl⟩ := encode_eq_ok h
  obtain rfl := Option.some.inj (hfind.symm.trans hrow)
  have hdest : e.family.hasDest = false := by rw [hfam]; rfl
  have hcop2 : e.family ≠ .cop2 := by rw [hfam]; decide
  obtain rfl := readSuffix_eq_self hdest hcop2 hsuffix
  exact ⟨g, hops, rfl⟩

/-- The word of a load or store holds its register, its offset and its base. -/
theorem encode_access {e : Instruction} {file : RegisterFile} {o : Operand} {w : Word}
    {target offset base : Bytes} (hrow : IsAccess c.name e file o)
    (hargs : c.args = [target, offset, base]) (h : encode labels index c = .ok w) :
    ∃ r v q, file.find? (bare target) = some r ∧
      integerOperand .asmImmediateValueInvalid (bare offset) = .ok v ∧
      RegisterFile.general.find? (bare base) = some q ∧ w.bits 26 6 = e.opcode ∧ w.rt = r ∧
      w.imm = v.setWidth 16 ∧ w.rs = q := by
  obtain ⟨f, hops, rfl⟩ := pack_of_encode hrow.found hrow.family h
  rw [hrow.operands, hargs] at hops
  obtain ⟨f1, h1, hops⟩ := Outcome.bind_eq_ok.1 hops
  obtain ⟨f2, h2, hops⟩ := Outcome.bind_eq_ok.1 hops
  obtain ⟨f3, h3, hops⟩ := Outcome.bind_eq_ok.1 hops
  obtain rfl := Outcome.pure_eq_ok.1 hops
  obtain ⟨r, hr, rfl⟩ := readOperand_slot hrow.register h1
  obtain ⟨v, hv, rfl⟩ := readOperand_imm (readMarked_eq_ok h2)
  obtain ⟨q, hq, rfl⟩ := readOperand_slot rfl (readMarked_eq_ok h3)
  refine ⟨r, v, q, hr, hv, hq, major_pack _ (mem_table_of_find? hrow.found) hrow.family, ?_, ?_, ?_⟩
  · rw [rt_pack _ hrow.family]
    rfl
  · rw [imm_pack _ hrow.family]
    rfl
  · rw [rs_pack _ hrow.family]
    rfl

/-- The word that loads the upper half of a register. -/
theorem encode_upper {w : Word} {target upper : Bytes} (hname : c.name = ascii "LUI")
    (hargs : c.args = [target, upper]) (h : encode labels index c = .ok w) :
    ∃ r v, RegisterFile.general.find? (bare target) = some r ∧
      integerOperand .asmImmediateValueInvalid (bare upper) = .ok v ∧ w.bits 26 6 = 0b001111 ∧
      w.rt = r ∧ w.imm = v.setWidth 16 := by
  have hfind : find? c.name = some upperRow := by rw [hname, find?_upperRow]
  obtain ⟨f, hops, rfl⟩ := pack_of_encode hfind rfl h
  rw [hargs] at hops
  obtain ⟨f1, h1, hops⟩ := Outcome.bind_eq_ok.1 hops
  obtain ⟨f2, h2, hops⟩ := Outcome.bind_eq_ok.1 hops
  obtain rfl := Outcome.pure_eq_ok.1 hops
  obtain ⟨r, hr, rfl⟩ := readOperand_slot rfl h1
  obtain ⟨v, hv, rfl⟩ := readOperand_imm (readMarked_eq_ok h2)
  refine ⟨r, v, hr, hv, major_pack _ (mem_table_of_find? find?_upperRow) rfl, ?_, ?_⟩
  · exact rt_pack _ rfl
  · exact imm_pack _ rfl

/-! ## Numbers -/

theorem integerOperand_hexOperand {fault : Fault} {n : Nat} (h : n < 2 ^ 32) :
    integerOperand fault (bare (hexOperand n)) = .ok (BitVec.ofNat 32 n) := by
  have hplain := Disassembly.hexMark_isPlain (Disassembly.fixed_isPlain (Hex.size n) n)
  have hbare : bare (hexOperand n) = ascii "0x" ++ Hex.natural n := bare_comma hplain
  rw [hbare, integerOperand_hex h]

theorem integerOperand_toNat {fault : Fault} (v : Word) :
    integerOperand fault (bare (hexOperand v.toNat)) = .ok v := by
  rw [integerOperand_hexOperand v.isLt, BitVec.ofNat_toNat, BitVec.setWidth_eq]

theorem integerOperand_minusHex {fault : Fault} {n : Nat} (h : n < 2 ^ 32) :
    integerOperand fault (bare (ascii ",-0x" ++ Hex.natural n)) = .ok (-(BitVec.ofNat 32 n)) := by
  have hplain : ∀ b ∈ ascii "-0x" ++ Hex.natural n, Byte.isPlain b = true :=
    List.forall_mem_append.2 ⟨List.all_eq_true.1 (by decide), Disassembly.fixed_isPlain _ n⟩
  have hbare : bare (ascii ",-0x" ++ Hex.natural n) = ascii "-0x" ++ Hex.natural n :=
    bare_comma hplain
  rw [hbare]
  exact Argument.literal_eq_ok (Literal.isInteger_minusHex (Hex.isHexDigits_natural h))
    (Literal.integer_minusHex (Hex.hexWord_natural h))

theorem toNat_signExtend (x : BitVec 16) :
    (x.signExtend 32).toNat = if x.toNat < 0x8000 then x.toNat else x.toNat + 0xFFFF0000 := by
  have hlt := x.isLt
  rw [BitVec.toNat_signExtend, BitVec.toNat_setWidth, Nat.mod_eq_of_lt (by omega),
    BitVec.msb_eq_decide]
  by_cases h : x.toNat < 0x8000
  · rw [if_pos h, if_neg (by simp; omega), Nat.add_zero]
  · rw [if_neg h, if_pos (by simp; omega)]

theorem toNat_upper (x : BitVec 16) : (x ++ 0#16 : BitVec 32).toNat = x.toNat * 0x10000 := by
  rw [BitVec.toNat_append, Nat.shiftLeft_eq]
  simp

/-- The two halves of an address add up to it if the upper one makes up for the sign of the lower
one. -/
theorem upper_add_lower {a : Word} {upper lower : BitVec 16}
    (hlower : lower.toNat = a.toNat % 0x10000)
    (hupper : upper.toNat = (a.toNat / 0x10000 + (if lower.toNat < 0x8000 then 0 else 1)) %
      0x10000) :
    (upper ++ 0#16 : BitVec 32) + lower.signExtend 32 = a := by
  apply BitVec.eq_of_toNat_eq
  have hlt := a.isLt
  rw [BitVec.toNat_add, toNat_upper, toNat_signExtend, hupper]
  split
  · omega
  · omega

/-! ## Lines of a scope -/

theorem expanded_of_words {base : Word} {cmds : List Command} {words : List Word}
    (h : (assemble t base cmds).words = .ok words) : ∃ x, Expanded.ofCommands t cmds = .ok x := by
  unfold assemble at h
  cases hexpand : Expanded.ofCommands t cmds with
  | error fault =>
    rw [hexpand] at h
    cases h
  | ok x => exact ⟨x, rfl⟩

/-- The words of a scope fall into those of the lines before a line, its own and those after it. -/
theorem words_expanded {base : Word} {x : Expanded} {pre post : List Command} {words : List Word}
    (hexpand : Expanded.ofCommands t (pre ++ c :: post) = .ok x)
    (h : (assemble t base (pre ++ c :: post)).words = .ok words) :
    ∃ before code after, words = before ++ code ++ after ∧
      before.length = (pre.flatMap (produced t)).length ∧
      (encodeFrom x.labels base before.length (produced t c)).words = .ok code := by
  unfold assemble at h
  rw [hexpand] at h
  have hcode :
      x.code = (pre.flatMap (produced t) ++ produced t c) ++ post.flatMap (produced t) := by
    have hall := (foldlM_addLine hexpand).1
    rw [hall, List.flatMap_append, List.flatMap_cons, List.append_assoc]
    rfl
  have hwords : (encodeFrom x.labels base 0 x.code).words = .ok words := h
  rw [hcode] at hwords
  obtain ⟨front, after, rfl, hfront, -⟩ := words_encodeFrom_append hwords
  obtain ⟨before, code, rfl, hbefore, hline⟩ := words_encodeFrom_append hfront
  have hlen := (words_encodeFrom hbefore).1
  refine ⟨before, code, after, rfl, hlen, ?_⟩
  rwa [hlen, ← Nat.zero_add (pre.flatMap (produced t)).length]

theorem words_line {base : Word} {pre post : List Command} {words : List Word}
    (h : (assemble t base (pre ++ c :: post)).words = .ok words) :
    ∃ labels before code after, words = before ++ code ++ after ∧
      before.length = (pre.flatMap (produced t)).length ∧ code.length = (produced t c).length ∧
      ∀ k d, (produced t c)[k]? = some d → ∃ w, code[k]? = some w ∧
        encode labels (before.length + k) d = .ok w := by
  obtain ⟨x, hexpand⟩ := expanded_of_words h
  obtain ⟨before, code, after, hsplit, hbefore, hline⟩ := words_expanded hexpand h
  obtain ⟨hlen, hat⟩ := words_encodeFrom hline
  exact ⟨x.labels, before, code, after, hsplit, hbefore, hlen, hat⟩

theorem loadStore_passesForms (h : c.name ∈ loadStores) : PassesForms c := by
  have hnames : ∀ name ∈ loadStores,
      name ∉ (["J", "JAL", "JALR", "LI", "BLT", "BGE", "BLE", "BGT"].map ascii) := by decide
  have hname := hnames c.name h
  obtain ⟨htwo, hshift⟩ := loadStore_not_shortForm h
  simp only [List.map_cons, List.map_nil, List.mem_cons, List.not_mem_nil, or_false,
    not_or] at hname
  obtain ⟨hj, hjal, hjalr, hli, hblt, hbge, hble, hbgt⟩ := hname
  refine ⟨?_, ⟨hj, hjal⟩, fun heq => absurd heq hjalr, ?_⟩
  · rintro (hmem | hmem)
    · exact absurd hmem htwo
    · exact absurd hmem hshift
  · simp [hli, hblt, hbge, hble, hbgt]

theorem instructionsOf_loadStore (h : c.name ∈ loadStores) : instructionsOf t c = access t c := by
  have hjalr : c.name ≠ ascii "JALR" := by
    have hnames : ∀ name ∈ loadStores, name ≠ ascii "JALR" := by decide
    exact hnames c.name h
  rw [(loadStore_passesForms h).instructionsOf_eq, if_pos ⟨h, hjalr⟩]

/-- The instructions of a load or store that is given an address. -/
theorem produced_bare {target place : Bytes} (hname : c.name ∈ loadStores)
    (hargs : c.args = [target, place]) (h : Literal.isAddress (bare place) = true) :
    produced t c = (absoluteAccess c target place).toOption.getD [] := by
  have hlabels : ∀ name ∈ loadStores, isLabel name = false := by decide
  have hself : c.withParts c.name [target, place] = c := by rw [← hargs]; rfl
  rw [produced, hargs, producedIn, hlabels c.name hname, if_neg Bool.false_ne_true, hself,
    instructionsOf_loadStore hname, access_bare hargs h]

/-! ## The address that is reached -/

theorem signExtend_eq_iff {a : Word} (hsmall : a.toInt < 0x8000) :
    (a.setWidth 16).signExtend 32 = a ↔ -0x8000 ≤ a.toInt := by
  constructor
  · intro h
    have hlow := BitVec.le_toInt (a.setWidth 16)
    rw [← h, BitVec.toInt_signExtend_of_le (by decide)]
    omega
  · intro h
    exact (eq_signExtend h hsmall).symm

/-- Whether a word is a load or store with the mnemonic and the register of a line. -/
def AccessesAs (name target : Bytes) (w : Word) : Prop :=
  ∃ e file o r, IsAccess name e file o ∧ file.find? (bare target) = some r ∧
    w.bits 26 6 = e.opcode ∧ w.rt = r

variable {target place : Bytes} {a w w' : Word}

/-- A small address is reached from `$zero`, as far as the sign of its lower half goes. -/
theorem reached_small (hname : c.name ∈ loadStores) (hsmall : a.toInt < 0x8000)
    (h : encode labels index (c.withParts c.name [target, hexOperand a.toNat, ascii ",$zero"]) =
      .ok w) :
    AccessesAs c.name target w ∧
      ∀ s : Registers, s.accessAddress? [w] = some a ↔ -0x8000 ≤ a.toInt := by
  obtain ⟨e, file, o, hrow⟩ := exists_isAccess hname
  obtain ⟨r, v, q, hr, hv, hq, hop, hrt, himm, hrs⟩ :=
    encode_access (c := c.withParts c.name [target, hexOperand a.toNat, ascii ",$zero"]) hrow rfl h
  refine ⟨⟨e, file, o, r, hrow, hr, hop, hrt⟩, fun s => ?_⟩
  have hvalue : v = a := Except.ok.inj (hv.symm.trans (integerOperand_toNat a))
  have hzero : q = 0 := (Option.some.inj hq).symm
  have haddress : s.accessAddress? [w] = some ((a.setWidth 16).signExtend 32) := by
    rw [Registers.accessAddress?, Registers.effectiveAddress, hrs, hzero, Registers.read_zero,
      himm, hvalue]
    simp
  rw [haddress, Option.some.injEq, signExtend_eq_iff hsmall]

/-- An address is reached if its upper half is loaded to a register and the lower half makes up for
the rest. -/
theorem reached_halves {base upper offset : Bytes} {u v : Word} {index' : Nat}
    (hname : c.name ∈ loadStores) (hbase : RegisterFile.general.find? (bare base) ≠ some 0)
    (hu : integerOperand .asmImmediateValueInvalid (bare upper) = .ok u)
    (hv : integerOperand .asmImmediateValueInvalid (bare offset) = .ok v)
    (hsum : (u.setWidth 16 ++ 0#16 : BitVec 32) + (v.setWidth 16).signExtend 32 = a)
    (h : encode labels index (c.withParts (ascii "LUI") [base, upper]) = .ok w)
    (h' : encode labels index' (c.withParts c.name [target, offset, commaBefore base]) = .ok w') :
    AccessesAs c.name target w' ∧ ∀ s : Registers, s.accessAddress? [w, w'] = some a := by
  obtain ⟨e, file, o, hrow⟩ := exists_isAccess hname
  obtain ⟨q, u', hq, hu', hlui, hrt, himm⟩ :=
    encode_upper (c := c.withParts (ascii "LUI") [base, upper]) rfl rfl h
  obtain ⟨r, v', q', hr, hv', hq', hop, hrt', himm', hrs'⟩ :=
    encode_access (c := c.withParts c.name [target, offset, commaBefore base]) hrow rfl h'
  obtain rfl := Except.ok.inj (hu.symm.trans hu')
  obtain rfl := Except.ok.inj (hv.symm.trans hv')
  -- the comma in front of the base does not count
  obtain rfl : q = q' := Option.some.inj (hq.symm.trans hq')
  have hne : q ≠ 0 := by
    rintro rfl
    exact hbase hq
  refine ⟨⟨e, file, o, r, hrow, hr, hop, hrt'⟩, fun s => ?_⟩
  have hstep : s.accessAddress? [w, w'] =
      some ((s.write q ((w.imm ++ 0#16 : BitVec 32).signExtend 64)).effectiveAddress w') := by
    rw [Registers.accessAddress?_cons_cons, Registers.execute_upper s hlui, hrt]
    rfl
  rw [hstep, Registers.effectiveAddress, hrs', Registers.read_write_self s hne,
    setWidth_signExtend (n := 32) (m := 64) (by decide), himm, himm', hsum]

/-- The two halves into which an address is split add up to it. -/
theorem absoluteAccess_large (c : Command) (target : Bytes)
    (hvalue : Argument.addressValue (bare place) = .ok a) (hlarge : ¬ a.toInt < 0x8000) :
    ∃ base upper offset u v, base = (if c.name ∈ viaAt then ascii "$at" else target) ∧
      absoluteAccess c target place = .ok [c.withParts (ascii "LUI") [base, upper],
        c.withParts c.name [target, offset, commaBefore base]] ∧
      integerOperand .asmImmediateValueInvalid (bare upper) = .ok u ∧
      integerOperand .asmImmediateValueInvalid (bare offset) = .ok v ∧
      (u.setWidth 16 ++ 0#16 : BitVec 32) + (v.setWidth 16).signExtend 32 = a := by
  have hlt := a.isLt
  have hlow : (a.extractLsb' 0 16).toNat = a.toNat % 0x10000 := by
    rw [BitVec.extractLsb'_toNat]
    rfl
  have hhigh : (a.extractLsb' 16 16).toNat = a.toNat / 0x10000 := by
    rw [BitVec.extractLsb'_toNat, Nat.shiftRight_eq_div_pow]
    omega
  rw [absoluteAccess, hvalue]
  simp only [if_neg hlarge]
  by_cases hsign : (a.extractLsb' 0 16).toNat < 0x8000
  · simp only [if_pos hsign]
    refine ⟨_, _, _, _, _, rfl, rfl, integerOperand_hexOperand (by omega),
      integerOperand_hexOperand (by omega), upper_add_lower ?_ ?_⟩
    · rw [BitVec.toNat_setWidth, BitVec.toNat_ofNat]
      omega
    · rw [BitVec.toNat_setWidth, BitVec.toNat_setWidth, BitVec.toNat_ofNat, BitVec.toNat_ofNat]
      rw [if_pos (by omega)]
      omega
  · simp only [if_neg hsign]
    refine ⟨_, _, _, _, _, rfl, rfl, integerOperand_hexOperand (by omega),
      integerOperand_minusHex (by omega), upper_add_lower ?_ ?_⟩
    · rw [BitVec.toNat_setWidth, BitVec.toNat_neg, BitVec.toNat_ofNat]
      omega
    · rw [BitVec.toNat_setWidth, BitVec.toNat_setWidth, BitVec.toNat_neg, BitVec.toNat_ofNat,
        BitVec.toNat_ofNat]
      rw [if_neg (by omega)]
      omega

/-- **Loads and stores reach their address.** A load or store with a bare address, anywhere in a
scope, is assembled to code whose last word accesses the memory with the line's mnemonic and
register. Whatever the registers hold, the address of that access is the one given, unless it is
below `-0x8000` as a signed number. A general register that has to hold the upper half must not be
`$zero`. -/
theorem bareAddress_reached (t : DefinitionTable) (base : Word) (pre post : List Command)
    (c : Command) (target place : Bytes) (words : List Word) (hname : c.name ∈ loadStores)
    (hargs : c.args = [target, place]) (hplace : Literal.isAddress (bare place) = true)
    (hbase : c.name ∈ viaAt ∨ RegisterFile.general.find? (bare target) ≠ some 0)
    (hwords : (assemble t base (pre ++ c :: post)).words = .ok words) :
    ∃ a before code after access, Literal.address (bare place) = .ok a ∧
      words = before ++ code ++ after ∧ before.length = (pre.flatMap (produced t)).length ∧
      code.length = (produced t c).length ∧ code.getLast? = some access ∧
      AccessesAs c.name target access ∧
      ∀ s : Registers, s.accessAddress? code = some a ↔ -0x8000 ≤ a.toInt := by
  obtain ⟨a, ha⟩ := Literal.address_of_isAddress hplace
  obtain ⟨labels, before, code, after, hsplit, hbefore, hlen, hcode⟩ := words_line hwords
  have hvalue : Argument.addressValue (bare place) = .ok a := Argument.literal_eq_ok hplace ha
  have hproduced := produced_bare (t := t) hname hargs hplace
  by_cases hsmall : a.toInt < 0x8000
  · rw [absoluteAccess, hvalue] at hproduced
    simp only [if_pos hsmall] at hproduced
    rw [hproduced] at hlen hcode
    obtain ⟨w, rfl⟩ := List.length_eq_one_iff.1 hlen
    obtain ⟨_, hw, hencode⟩ := hcode 0 _ rfl
    obtain rfl := Option.some.inj hw
    obtain ⟨haccess, hreach⟩ := reached_small hname hsmall hencode
    exact ⟨a, before, [w], after, w, ha, hsplit, hbefore, by rw [hproduced]; rfl, rfl,
      haccess, hreach⟩
  · have hlarge : -0x8000 ≤ a.toInt := by omega
    obtain ⟨own, upper, offset, u, v, hown, haccess, hu, hv, hsum⟩ :=
      absoluteAccess_large c target hvalue hsmall
    have hne : RegisterFile.general.find? (bare own) ≠ some 0 := by
      by_cases hvia : c.name ∈ viaAt
      · rw [hown, if_pos hvia]
        decide
      · rw [hown, if_neg hvia]
        exact hbase.resolve_left hvia
    rw [haccess] at hproduced
    rw [hproduced] at hlen hcode
    obtain ⟨w, w', rfl⟩ := List.length_eq_two.1 hlen
    obtain ⟨_, hw, hencode⟩ := hcode 0 _ rfl
    obtain rfl := Option.some.inj hw
    obtain ⟨_, hw', hencode'⟩ := hcode 1 _ rfl
    obtain rfl := Option.some.inj hw'
    obtain ⟨haccess, hreach⟩ := reached_halves hname hne hu hv hsum hencode hencode'
    refine ⟨a, before, [w, w'], after, w', ha, hsplit, hbefore, by rw [hproduced]; rfl, rfl,
      haccess, ?_⟩
    exact fun s => iff_of_true (hreach s) hlarge

/-- A scope with a load from an address whose lower half is negative as an offset. -/
def floatLoad : List Command := ["nop", "lwc1 $f4,12348ABC"].map fun line =>
    Command.ofLine (ascii line)

set_option maxRecDepth 8000 in
theorem bareAddress_reached_floatLoad :
    (assemble {} 0 floatLoad).words = .ok [0x00000000, 0x3C011235, 0xC4248ABC] ∧
      ∀ s : Registers, s.accessAddress? [0x3C011235, 0xC4248ABC] = some 0x12348ABC := by
  have hwords : (assemble {} 0 floatLoad).words = .ok [0x00000000, 0x3C011235, 0xC4248ABC] := by
    decide
  obtain ⟨a, before, code, after, access, ha, hsplit, hbefore, hlen, -, -, hreach⟩ :=
    bareAddress_reached {} 0 [Command.ofLine (ascii "nop")] []
      (Command.ofLine (ascii "lwc1 $f4,12348ABC"))
      (ascii "$f4") (ascii ",12348ABC") _ (by decide) rfl (by decide) (.inl (by decide)) hwords
  refine ⟨hwords, fun s => ?_⟩
  obtain rfl : a = 0x12348ABC := (Except.ok.inj ha).symm
  have hbefore' : before.length = 1 := hbefore
  have hlen' : code.length = 2 := hlen
  obtain ⟨first, rfl⟩ := List.length_eq_one_iff.1 hbefore'
  obtain ⟨w, w', rfl⟩ := List.length_eq_two.1 hlen'
  simp only [List.cons_append, List.nil_append, List.cons.injEq] at hsplit
  obtain ⟨-, rfl, rfl, -⟩ := hsplit
  exact (hreach s).2 (by decide)

set_option maxRecDepth 8000 in
/-- The first address that is negative as a signed number is not reached: its upper half is lost. -/
theorem bareAddress_missed :
    Literal.isAddress (ascii "80000000") = true ∧
      Literal.address (ascii "80000000") = .ok 0x80000000 ∧
      (assemble {} 0 [Command.ofLine (ascii "lw $t0,80000000")]).words = .ok [0x8C080000] ∧
      ∀ s : Registers, s.accessAddress? [0x8C080000] = some 0 := by
  refine ⟨by decide, by decide, by decide, fun s => ?_⟩
  have hbase : (0x8C080000 : Word).rs = 0 := by decide
  have hoffset : (0x8C080000 : Word).imm = 0 := by decide
  rw [Registers.accessAddress?, Registers.effectiveAddress, hbase, hoffset, Registers.read_zero]
  rfl

end Assembly

end CheatScript
