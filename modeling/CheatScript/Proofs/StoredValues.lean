import CheatScript.Proofs.LineCode

/-!
# Proofs: what a store to a bare address stores

A store to an address that does not fit in an offset loads the upper half of the address first. For
a float or a vector register the upper half goes to `$at`. For a general register it goes to the
register that is stored, so the store is passed that upper half in place of the register's own
number.
-/

namespace CheatScript

/-! ## Machine -/

/-- The registers of all files. A general register has 128 bits, and what only computes leaves the
upper 64 of them as they are. -/
structure Machine where
  general : Registers
  upper : BitVec 5 → BitVec 64
  float : BitVec 5 → BitVec 32
  vector : BitVec 5 → BitVec 128
  integer : BitVec 5 → BitVec 16

namespace Machine

/-- The number in a register of a file. -/
def read (m : Machine) (file : RegisterFile) (r : BitVec 5) : BitVec 128 := match file with
  | .general => (if r = 0 then 0 else m.upper r) ++ m.general.read r
  | .float => (m.float r).setWidth 128
  | .vector => m.vector r
  | .integer => (m.integer r).setWidth 128

def execute (m : Machine) (w : Word) : Option Machine :=
  (m.general.execute w).map fun s => { m with general := s }

/-- The file whose register a store with a given opcode stores. -/
def storedFile? (opcode : Nat) : Option RegisterFile := match opcode with
  -- sb, sh, swl, sw, sdl, sdr, swr
  | 0b101000 | 0b101001 | 0b101010 | 0b101011 | 0b101100 | 0b101101 | 0b101110 => some .general
  -- sq, sd
  | 0b011111 | 0b111111 => some .general
  -- swc1
  | 0b111001 => some .float
  -- sqc2
  | 0b111110 => some .vector
  | _ => none

/-- What the last word of some code, a store, is passed after those before it. -/
def passed? : (code : List Word) → Machine → Option (BitVec 128)
  | [], _ => none
  | [store], m => (storedFile? (store.bits 26 6)).map fun file => m.read file store.rt
  | w :: code, m => (m.execute w).bind (passed? code)

theorem passed?_store {m : Machine} {w : Word} {file : RegisterFile}
    (h : storedFile? (w.bits 26 6) = some file) : m.passed? [w] = some (m.read file w.rt) := by
  rw [passed?, h]
  rfl

theorem passed?_cons_cons (m : Machine) (w w' : Word) (code : List Word) :
    m.passed? (w :: w' :: code) = (m.execute w).bind (passed? (w' :: code)) := rfl

theorem read_of_ne_general {m : Machine} {file : RegisterFile} (h : file ≠ .general) (s : Registers)
    (r : BitVec 5) : { m with general := s }.read file r = m.read file r := by
  cases file with
  | general => exact absurd rfl h
  | float => rfl
  | vector => rfl
  | integer => rfl

theorem read_general_eq_iff {m : Machine} {s : Registers} {r : BitVec 5} :
    { m with general := s }.read .general r = m.read .general r ↔ s.read r = m.general.read r :=
  BitVec.append_right_inj _

end Machine

namespace Assembly

open Instruction

/-! ## Stores -/

/-- The mnemonics of stores, each with the file of the register that is stored. -/
def stores : List (Bytes × RegisterFile) :=
  ["SB", "SH", "SW", "SWL", "SWR", "SD", "SDL", "SDR", "SQ"].map
    (fun name => (ascii name, .general)) ++ [(ascii "SWC1", .float), (ascii "SQC2", .vector)]

structure IsStore (name : Bytes) (e : Instruction) (file : RegisterFile) (o : Operand) : Prop
    extends IsAccess name e file o where
  loadStore : name ∈ loadStores
  stored : Machine.storedFile? e.opcode = some file
  viaAt_iff : name ∈ viaAt ↔ file ≠ .general

set_option maxRecDepth 8000 in
theorem exists_isStore {name : Bytes} {file : RegisterFile} (h : (name, file) ∈ stores) :
    ∃ e o, IsStore name e file o := by
  have hnames : ∀ s ∈ stores, s.1 ∈ loadStores ∧ (s.1 ∈ viaAt ↔ s.2 ≠ .general) := by decide
  have hrows : ∀ s ∈ stores,
      (find? s.1).any (fun e => decide (Machine.storedFile? e.opcode = some s.2) &&
      decide ((e.operands.head?.bind Operand.register?).map Prod.fst = some s.2)) = true := by
    decide
  obtain ⟨hmem, hvia⟩ := hnames _ h
  obtain ⟨e, file', o, hrow⟩ := exists_isAccess hmem
  have hfacts := hrows _ h
  simp only [hrow.found, Option.any_some, Bool.and_eq_true, decide_eq_true_eq, hrow.operands,
    List.head?_cons, Option.bind_some, hrow.register, Option.map_some, Option.some.injEq] at hfacts
  obtain ⟨hstored, rfl⟩ := hfacts
  exact ⟨e, o, hrow, hmem, hstored, hvia⟩

variable {d : Command} {target place : Bytes} {file : RegisterFile} {o : Operand}
  {e : Instruction} {r q : BitVec 5} {a u v : Word}

/-- The two halves of an address are written with their commas. -/
theorem halves_marked {base upper offset : Bytes}
    (h : absoluteAccess d target place = .ok [d.withParts (ascii "LUI") [base, upper],
      d.withParts d.name [target, offset, commaBefore base]]) :
    Argument.hasMark Byte.comma upper = true ∧ Argument.hasMark Byte.comma offset = true := by
  unfold absoluteAccess at h
  split at h
  · cases h
  · rename_i a _
    split at h
    · have hlen := congrArg List.length (Except.ok.inj h)
      cases hlen
    · by_cases hlow : (a.extractLsb' 0 16).toNat < 0x8000
      · simp only [if_pos hlow] at h
        have hargs := congrArg (List.map Command.args) (Except.ok.inj h)
        simp only [Command.withParts, List.map_cons, List.cons.injEq] at hargs
        obtain ⟨⟨-, rfl, -⟩, ⟨-, rfl, -⟩, -⟩ := hargs
        exact ⟨rfl, rfl⟩
      · simp only [if_neg hlow] at h
        have hargs := congrArg (List.map Command.args) (Except.ok.inj h)
        simp only [Command.withParts, List.map_cons, List.cons.injEq] at hargs
        obtain ⟨⟨-, rfl, -⟩, ⟨-, rfl, -⟩, -⟩ := hargs
        exact ⟨rfl, rfl⟩

/-! ## Code -/

theorem absoluteAccess_small_encodedAs (hrow : IsAccess d.name e file o)
    (htarget : file.find? (bare target) = some r) :
    EncodedAs [d.withParts d.name [target, hexOperand a.toNat, ascii ",$zero"]]
      [e.pack { rs := 0, rt := r, imm := a }] := by
  have hzero : RegisterFile.general.find? (bare (ascii ",$zero")) = some 0 := rfl
  refine .cons (fun labels index => ?_) .nil
  exact encode_access_eq hrow rfl htarget rfl (integerOperand_toNat a) rfl hzero

theorem absoluteAccess_large_encodedAs {base upper offset : Bytes} (hrow : IsAccess d.name e file o)
    (hlines : absoluteAccess d target place = .ok [d.withParts (ascii "LUI") [base, upper],
      d.withParts d.name [target, offset, commaBefore base]])
    (htarget : file.find? (bare target) = some r)
    (hbase : RegisterFile.general.find? (bare base) = some q)
    (hu : integerOperand .asmImmediateValueInvalid (bare upper) = .ok u)
    (hv : integerOperand .asmImmediateValueInvalid (bare offset) = .ok v) :
    EncodedAs [d.withParts (ascii "LUI") [base, upper],
        d.withParts d.name [target, offset, commaBefore base]]
      [upperRow.pack { rt := q, imm := u }, e.pack { rs := q, rt := r, imm := v }] := by
  obtain ⟨hupper, hoffset⟩ := halves_marked hlines
  refine .cons (fun labels index => ?_) (.cons (fun labels index => ?_) .nil)
  · exact encode_upper_eq rfl rfl hbase hupper hu
  · exact encode_access_eq hrow rfl htarget hoffset hv rfl hbase

/-- The upper half of an address, as it is loaded, is the address without the signed lower half. -/
theorem upper_eq_sub {x y : BitVec 16} (h : (x ++ 0#16 : BitVec 32) + y.signExtend 32 = a) :
    (x ++ 0#16 : BitVec 32) = a - (a.setWidth 16).signExtend 32 := by
  have hzero : (x ++ 0#16 : BitVec 32).setWidth 16 = 0#16 := by
    rw [BitVec.setWidth_append, dif_pos (by decide), BitVec.setWidth_eq]
  have hlow : a.setWidth 16 = y := by
    rw [← h, BitVec.setWidth_add _ _ (by decide), setWidth_signExtend (by decide), hzero,
      BitVec.zero_add]
  rw [hlow, ← h, BitVec.add_sub_cancel]

/-! ## The value that is passed -/

theorem passed?_pack (m : Machine) (hrow : IsStore d.name e file o) :
    m.passed? [e.pack { rs := q, rt := r, imm := v }] = some (m.read file r) := by
  have hmajor :=
    major_pack { rs := q, rt := r, imm := v } (mem_table_of_find? hrow.found) hrow.family
  rw [Machine.passed?_store (hmajor ▸ hrow.stored), rt_pack _ hrow.family]

theorem passed?_halves (m : Machine) (hrow : IsStore d.name e file o) :
    m.passed? [upperRow.pack { rt := q, imm := u }, e.pack { rs := q, rt := r, imm := v }] =
      some ({ m with general :=
        m.general.write q ((u.setWidth 16 ++ 0#16 : BitVec 32).signExtend 64) }.read file r) := by
  rw [Machine.passed?_cons_cons, Machine.execute, execute_upperRow]
  exact passed?_pack _ hrow

theorem accessesAs_pack (hrow : IsAccess d.name e file o)
    (htarget : file.find? (bare target) = some r) :
    AccessesAs d.name target (e.pack { rs := q, rt := r, imm := v }) :=
  ⟨e, file, o, r, hrow, htarget, major_pack _ (mem_table_of_find? hrow.found) hrow.family,
    rt_pack _ hrow.family⟩

/-- **Stores to a bare address.** A store of a register, not `$zero`, to an address is assembled to
the same words wherever it stands. The last of them is the store. Whatever the registers hold, it is
passed the value that the register had before if the register is a float or a vector one, or if the
address is below `0x8000` as a signed number. Otherwise it is passed the upper half of the address,
so the value is right only if the register held just that. -/
theorem bareStore_passes_iff (c d : Command) (target place : Bytes) (file : RegisterFile)
    (r : BitVec 5)
    (hline : instruction? c = some d) (hstore : (d.name, file) ∈ stores)
    (hargs : d.args = [target, place])
    (htarget : file.find? (bare target) = some r) (hr : file = .general → r ≠ 0)
    (hplace : Literal.isAddress (bare place) = true) :
    ∃ a code store, Literal.address (bare place) = .ok a ∧ HasCode c d code ∧
      code.getLast? = some store ∧ AccessesAs d.name target store ∧
      ∀ m : Machine, m.passed? code = some (m.read file r) ↔
        d.name ∈ viaAt ∨ a.toInt < 0x8000 ∨
          m.general.read r = (a - (a.setWidth 16).signExtend 32).signExtend 64 := by
  obtain ⟨e, o, hrow⟩ := exists_isStore hstore
  obtain ⟨a, ha⟩ := Literal.address_of_isAddress hplace
  have hvalue : Argument.addressValue (bare place) = .ok a := Argument.literal_eq_ok hplace ha
  have hform : ∀ t, instructionsOf t d = absoluteAccess d target place := by
    intro t
    rw [instructionsOf_loadStore hrow.loadStore, access_bare hargs hplace]
  by_cases hsmall : a.toInt < 0x8000
  · have hlines : absoluteAccess d target place =
        .ok [d.withParts d.name [target, hexOperand a.toNat, ascii ",$zero"]] := by
      rw [absoluteAccess, hvalue]
      exact if_pos hsmall
    have hencoded := absoluteAccess_small_encodedAs (a := a) hrow.toIsAccess htarget
    refine ⟨a, _, _, ha, hencoded.hasCode hline fun t => (hform t).trans hlines, rfl,
      accessesAs_pack hrow.toIsAccess htarget, fun m => ?_⟩
    exact iff_of_true (passed?_pack m hrow) (.inr (.inl hsmall))
  · obtain ⟨base, upper, offset, u, v, hbase, hlines, hu, hv, hsum⟩ :=
      absoluteAccess_large d target hvalue hsmall
    by_cases hvia : d.name ∈ viaAt
    · -- the upper half goes to `$at`, which is in another file than the register
      have hat : RegisterFile.general.find? (bare base) = some 1 := by
        rw [hbase, if_pos hvia]
        rfl
      have hencoded := absoluteAccess_large_encodedAs hrow.toIsAccess hlines htarget hat hu hv
      refine ⟨a, _, _, ha, hencoded.hasCode hline fun t => (hform t).trans hlines, rfl,
        accessesAs_pack hrow.toIsAccess htarget, fun m => ?_⟩
      rw [passed?_halves m hrow, Machine.read_of_ne_general (hrow.viaAt_iff.1 hvia)]
      exact iff_of_true rfl (.inl hvia)
    · -- the upper half goes to the register itself
      obtain rfl := hrow.general hvia
      have hown : RegisterFile.general.find? (bare base) = some r := by
        rw [hbase, if_neg hvia]
        exact htarget
      have hencoded := absoluteAccess_large_encodedAs hrow.toIsAccess hlines htarget hown hu hv
      refine ⟨a, _, _, ha, hencoded.hasCode hline fun t => (hform t).trans hlines, rfl,
        accessesAs_pack hrow.toIsAccess htarget, fun m => ?_⟩
      rw [passed?_halves m hrow, Option.some.injEq, Machine.read_general_eq_iff,
        Registers.read_write_self _ (hr rfl), upper_eq_sub hsum]
      simp only [hvia, hsmall, false_or]
      exact eq_comm

/-- A store of a float register to an address whose lower half is negative as an offset. -/
def floatStore : Command := Command.ofLine (ascii "swc1 $f4,12348ABC")

set_option maxRecDepth 8000 in
theorem bareStore_passes_float :
    (assemble {} 0 [floatStore]).words = .ok [0x3C011235, 0xE4248ABC] ∧
      ∀ m : Machine, m.passed? [0x3C011235, 0xE4248ABC] = some (m.read .float 4) := by
  obtain ⟨a, code, store, -, hcode, -, -, hpassed⟩ :=
    bareStore_passes_iff floatStore floatStore (ascii "$f4") (ascii ",12348ABC") .float 4
      rfl (by decide) rfl rfl (by decide) (by decide)
  obtain rfl : [0x3C011235, 0xE4248ABC] = code := Except.ok.inj (hcode.alone {} 0)
  exact ⟨by decide, fun m => (hpassed m).2 (.inl (by decide))⟩

/-- A machine with one number in all general registers. -/
def uniform (x : BitVec 64) : Machine :=
  ⟨⟨fun _ => x⟩, fun _ => 0, fun _ => 0, fun _ => 0, fun _ => 0⟩

set_option maxRecDepth 8000 in
/-- A general register that is stored above `0x8000` is lost: what is stored is half of the
address. -/
theorem bareStore_passes_upper :
    (assemble {} 0 [Command.ofLine (ascii "sw $t0,12345678")]).words =
      .ok [0x3C081234, 0xAD085678] ∧
      (uniform 7).passed? [0x3C081234, 0xAD085678] = some 0x12340000 ∧
      (uniform 7).read .general 8 = 7 := by
  refine ⟨by decide, by decide, by decide⟩

end Assembly

end CheatScript
