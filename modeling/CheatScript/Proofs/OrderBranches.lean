import CheatScript.Proofs.LineCode
import Mathlib.Data.List.DropRight

/-!
# Proofs: branches on the order of two registers

A branch on an order is assembled to a comparison into `$at` and a branch on the outcome. For two of
the four orders the registers change places, and for two the branch is taken if the comparison
fails. Run with any numbers in the registers, the two words branch exactly if the order holds. This
is so for the same register twice, for `$zero`, and for `$at` itself, which the comparison reads
before it is overwritten.
-/

namespace CheatScript

/-! ## Branches of the machine -/

namespace Registers

/-- Whether a branch on two equal or two different registers is taken. Such a branch changes no
register. -/
def taken? (s : Registers) (w : Word) : Option Bool := match w.bits 26 6 with
  -- beq
  | 0b000100 => some (decide (s.read w.rs = s.read w.rt))
  -- bne
  | 0b000101 => some (decide (s.read w.rs ≠ s.read w.rt))
  | _ => none

/-- The registers behind some code whose last word is a branch, and whether that is taken. -/
def branch? : (code : List Word) → Registers → Option (Registers × Bool)
  | [], _ => none
  | [branch], s => (s.taken? branch).map (s, ·)
  | w :: code, s => (s.execute w).bind (branch? code)

theorem branch?_cons_cons (s : Registers) (w w' : Word) (code : List Word) :
    s.branch? (w :: w' :: code) = (s.execute w).bind (branch? (w' :: code)) := rfl

theorem execute_compare (s : Registers) {w : Word} (hmajor : w.bits 26 6 = 0b000000)
    (hfunction : w.bits 0 6 = 0b101010) :
    s.execute w = some (s.write w.rd (if (s.read w.rs).slt (s.read w.rt) then 1 else 0)) := by
  rw [execute, hmajor]
  exact if_pos hfunction

end Registers

namespace Assembly

open Instruction

variable {t : DefinitionTable} {c d : Command} {base : Word} {labels : Labels} {index : Nat}
  {r1 r2 token : Bytes} {x y : BitVec 5}

/-! ## Rows -/

/-- The row that compares two registers. -/
def compareRow : Instruction := entry "SLT" .special 0b101010 [.rd, .rs, .rt]

/-- The row that branches if two registers are different, and the one that branches if they are
equal. -/
def branchRow (different : Bool) : Instruction :=
  if different then entry "BNE" .normal 0b000101 [.rs, .rt, .label]
  else entry "BEQ" .normal 0b000100 [.rs, .rt, .label]

theorem find?_compareRow : find? (ascii "SLT") = some compareRow := rfl

theorem find?_branchRow (different : Bool) :
    find? (if different then ascii "BNE" else ascii "BEQ") = some (branchRow different) := by
  cases different <;> rfl

theorem family_branchRow (different : Bool) : (branchRow different).family = .normal := by
  cases different <;> rfl

theorem execute_compareRow (s : Registers) (x y z : BitVec 5) :
    s.execute (compareRow.pack { rs := x, rt := y, rd := z }) =
      some (s.write z (if (s.read x).slt (s.read y) then 1 else 0)) := by
  have hplaced := table_placed compareRow (mem_table_of_find? find?_compareRow)
  have hmajor : (compareRow.pack { rs := x, rt := y, rd := z }).bits 26 6 = 0b000000 :=
    Word.bits_eq (extract_major compareRow _) rfl
  have hslot (slot : Slot) (h : Family.special.hasSlot slot = true) :=
    rawFields_pack_slot (e := compareRow) (f := { rs := x, rt := y, rd := z }) (s := slot) h
  have hrs : (compareRow.pack { rs := x, rt := y, rd := z }).rs = x := hslot .rs rfl
  have hrt : (compareRow.pack { rs := x, rt := y, rd := z }).rt = y := hslot .rt rfl
  have hrd : (compareRow.pack { rs := x, rt := y, rd := z }).rd = z := hslot .rd rfl
  rw [Registers.execute_compare s hmajor (opcode_pack hplaced _), hrs, hrt, hrd]

theorem taken?_branchRow (s : Registers) (different : Bool) (x y : BitVec 5) (v : Word) :
    s.taken? ((branchRow different).pack { rs := x, rt := y, imm := v }) =
      some (decide (different = true ↔ s.read x ≠ s.read y)) := by
  have hfamily := family_branchRow different
  have hmajor := major_pack { rs := x, rt := y, imm := v }
    (mem_table_of_find? (find?_branchRow different)) hfamily
  unfold Registers.taken?
  rw [hmajor, rs_pack _ hfamily, rt_pack _ hfamily]
  cases different
  · simp [branchRow, entry]
  · simp [branchRow, entry]

/-! ## Words -/

theorem readOperand_label {family : Family} {f : Fields} {s : Bytes} {place : Nat}
    (hjump : family ≠ .jump) (h : labels.lookup (Bytes.upper s) = some place) :
    readOperand family labels index f .label s =
      .ok { f with imm := BitVec.ofInt 32 ((place : Int) - (index + 1)) } := by
  rw [readOperand, labelOperand, if_neg hjump, h]
  rfl

theorem encode_compare (hx : RegisterFile.general.find? (bare r1) = some x)
    (hy : RegisterFile.general.find? (bare r2) = some y) :
    encode labels index (c.withParts (ascii "SLT") [ascii "$at", commaBefore r1, commaBefore r2]) =
      .ok (compareRow.pack { rs := x, rt := y, rd := 1 }) := by
  have hat : RegisterFile.general.find? (bare (ascii "$at")) = some 1 := rfl
  refine encode_eq find?_compareRow rfl ?_ rfl
  exact Outcome.bind_eq_ok.2 ⟨_, readOperand_slot_eq rfl hat, Outcome.bind_eq_ok.2
    ⟨_, (readMarked_eq rfl).trans (readOperand_slot_eq rfl hx), Outcome.bind_eq_ok.2
    ⟨_, (readMarked_eq rfl).trans (readOperand_slot_eq rfl hy), rfl⟩⟩⟩

theorem encode_branchOn (different : Bool) {place : Nat}
    (hmark : Argument.hasMark Byte.comma token = true)
    (hplace : labels.lookup (Bytes.upper (bare token)) = some place) :
    encode labels index (c.withParts (if different then ascii "BNE" else ascii "BEQ")
        [ascii "$at", ascii ",$zero", token]) =
      .ok ((branchRow different).pack
        { rs := 1, rt := 0, imm := BitVec.ofInt 32 ((place : Int) - (index + 1)) }) := by
  have hat : RegisterFile.general.find? (bare (ascii "$at")) = some 1 := rfl
  have hzero : RegisterFile.general.find? (bare (ascii ",$zero")) = some 0 := rfl
  have hfamily := family_branchRow different
  have hoperands : (branchRow different).operands = [.rs, .rt, .label] := by cases different <;> rfl
  refine encode_normal (find?_branchRow different) hfamily (by rw [hoperands]; rfl) ?_
  rw [hoperands]
  exact Outcome.bind_eq_ok.2 ⟨_, readOperand_slot_eq rfl hat, Outcome.bind_eq_ok.2
    ⟨_, (readMarked_eq rfl).trans (readOperand_slot_eq rfl hzero), Outcome.bind_eq_ok.2
    ⟨_, (readMarked_eq hmark).trans (readOperand_label (by decide) hplace), rfl⟩⟩⟩

/-! ## Orders -/

/-- The orders on which there are branches. -/
inductive Order where
  | less
  | atLeast
  | atMost
  | greater
  deriving DecidableEq, Repr

namespace Order

/-- The mnemonic of the branch. -/
def mnemonic : Order → Bytes
  | .less => ascii "BLT"
  | .atLeast => ascii "BGE"
  | .atMost => ascii "BLE"
  | .greater => ascii "BGT"

/-- Whether two numbers are in the order. -/
def Holds : Order → Int → Int → Prop
  | .less, a, b => a < b
  | .atLeast, a, b => a ≥ b
  | .atMost, a, b => a ≤ b
  | .greater, a, b => a > b

/-- Whether the registers change places in the comparison. -/
def swaps : Order → Bool
  | .less | .atLeast => false
  | .atMost | .greater => true

/-- Whether the branch is taken if the comparison succeeds, and not if it fails. -/
def onSuccess : Order → Bool
  | .less | .greater => true
  | .atLeast | .atMost => false

/-- The branch as the assembler has it. -/
def branch (k : Order) : ComparingBranch :=
  ⟨k.mnemonic, k.swaps, if k.onSuccess then ascii "BNE" else ascii "BEQ"⟩

theorem branch_mem (k : Order) : k.branch ∈ comparingBranches := by
  cases k <;> simp [branch, comparingBranches, mnemonic, swaps, onSuccess]

/-- An order holds if the comparison goes as the branch expects it. -/
theorem holds_iff (k : Order) (a b : BitVec 64) :
    k.Holds a.toInt b.toInt ↔
      (k.onSuccess = true ↔ (if k.swaps then b.slt a else a.slt b) = true) := by
  cases k with
  | less => simp [Holds, swaps, onSuccess, BitVec.slt_iff_toInt_lt]
  | atLeast => simp [Holds, swaps, onSuccess, BitVec.slt_eq_decide]
  | atMost => simp [Holds, swaps, onSuccess, BitVec.slt_eq_decide]
  | greater => simp [Holds, swaps, onSuccess, BitVec.slt_iff_toInt_lt]

end Order

/-! ## Deciding an order -/

/-- The words for a branch on an order, at a distance from its label. -/
def orderCode (k : Order) (x y : BitVec 5) (distance : Word) : List Word :=
  [compareRow.pack { rs := if k.swaps then y else x, rt := if k.swaps then x else y, rd := 1 },
    (branchRow k.onSuccess).pack { rs := 1, rt := 0, imm := distance }]

/-- Whether two words branch exactly if an order holds between the numbers in two registers, and
change no register but `$at`. -/
def Decides (k : Order) (x y : BitVec 5) (code : List Word) : Prop :=
  code.length = 2 ∧ ∀ s : Registers, ∃ s' taken, s.branch? code = some (s', taken) ∧
    (taken = true ↔ k.Holds (s.read x).toInt (s.read y).toInt) ∧ ∀ q, q ≠ 1 → s'.read q = s.read q

theorem decides_orderCode (k : Order) (x y : BitVec 5) (distance : Word) :
    Decides k x y (orderCode k x y distance) := by
  refine ⟨rfl, fun s => ?_⟩
  -- what the comparison writes to `$at`
  generalize houtcome :
    (if (s.read (if k.swaps then y else x)).slt (s.read (if k.swaps then x else y))
    then 1 else 0 : BitVec 64) = outcome
  have hstep : s.branch? (orderCode k x y distance) = some (s.write 1 outcome,
      decide (k.onSuccess = true ↔ (s.write 1 outcome).read 1 ≠ (s.write 1 outcome).read 0)) := by
    rw [orderCode, Registers.branch?_cons_cons, execute_compareRow, houtcome, Option.bind_some,
      Registers.branch?, taken?_branchRow]
    rfl
  refine ⟨_, _, hstep, ?_, fun q hq => Registers.read_write_of_ne s hq outcome⟩
  have hset : outcome ≠ 0 ↔
      (if k.swaps then (s.read y).slt (s.read x) else (s.read x).slt (s.read y)) = true := by
    rw [← houtcome]
    cases k.swaps <;> simp
  rw [decide_eq_true_eq, Registers.read_zero, Registers.read_write_self s (by decide), hset,
    k.holds_iff]

/-! ## The lines of a branch -/

/-- The instructions for a branch on an order. -/
def orderLines (k : Order) (d : Command) (r1 r2 token : Bytes) : List Command :=
  let r2 := r2.dropWhile (· == Byte.comma)
  [d.withParts (ascii "SLT")
      [ascii "$at", commaBefore (if k.swaps then r2 else r1),
        commaBefore (if k.swaps then r1 else r2)],
    d.withParts k.branch.branch [ascii "$at", ascii ",$zero", token]]

theorem instructionsOf_order {k : Order} (hname : d.name = k.mnemonic)
    (hargs : d.args = [r1, r2, token]) : instructionsOf t d = .ok (orderLines k d r1 r2 token) := by
  rw [instructionsOf_eq_compareAndBranch k.branch_mem hname (by rw [hargs]; rfl),
    compareAndBranch, hargs]
  cases k <;> rfl

theorem words_order (k : Order) (d : Command) (base : Word) (index : Nat) {place : Nat}
    (hx : RegisterFile.general.find? (bare r1) = some x)
    (hy : RegisterFile.general.find? (bare r2) = some y)
    (hmark : Argument.hasMark Byte.comma token = true)
    (hplace : labels.lookup (Bytes.upper (bare token)) = some place) :
    (encodeFrom labels base index (orderLines k d r1 r2 token)).words =
      .ok (orderCode k x y (BitVec.ofInt 32 ((place : Int) - (↑(index + 1) + 1)))) := by
  have hbare : bare (r2.dropWhile (· == Byte.comma)) = bare r2 := by
    rw [bare, bare, List.dropWhile_idempotent]
  rw [← hbare] at hy
  have hcompare : encode labels index (d.withParts (ascii "SLT")
      [ascii "$at", commaBefore (if k.swaps then r2.dropWhile (· == Byte.comma) else r1),
        commaBefore (if k.swaps then r1 else r2.dropWhile (· == Byte.comma))]) =
      .ok (compareRow.pack
          { rs := if k.swaps then y else x, rt := if k.swaps then x else y, rd := 1 }) := by
    cases k.swaps
    · exact encode_compare hx hy
    · exact encode_compare hy hx
  exact words_encodeFrom_cons.2 ⟨_, _, hcompare, words_encodeFrom_cons.2
    ⟨_, _, encode_branchOn k.onSuccess hmark hplace, rfl, rfl⟩, rfl⟩

/-! ## The text of a branch -/

/-- How a general register is written: after how many blanks, and whether with its `$`. -/
structure Spelling where
  blanks : Nat
  dollar : Bool

namespace Spelling

/-- The name of a register. -/
def name (w : Spelling) (r : BitVec 5) : Bytes :=
  if w.dollar then RegisterFile.general.nameOf r else (RegisterFile.general.nameOf r).tail

/-- The name after its blanks. -/
def text (w : Spelling) (r : BitVec 5) : Bytes := List.replicate w.blanks Byte.space ++ w.name r

theorem name_isPlain (w : Spelling) (r : BitVec 5) : ∀ b ∈ w.name r, Byte.isPlain b = true := by
  intro b hb
  refine RegisterFile.nameOf_isPlain .general r b ?_
  unfold name at hb
  split at hb
  · exact hb
  · exact List.mem_of_mem_tail hb

theorem find?_name (w : Spelling) (r : BitVec 5) :
    RegisterFile.general.find? (w.name r) = some r := by
  have hfull : RegisterFile.general.find? (RegisterFile.general.nameOf r) = some r :=
    RegisterFile.find?_nameOf (fun h => by cases h)
  unfold name
  split
  · exact hfull
  · -- no name has a second `$` that could be taken for the sign
    have hnames : RegisterFile.generalNames.all
        (fun name => decide (Bytes.dropLead [Byte.dollar] name = name)) = true := by decide
    have hbare : Bytes.dropLead [Byte.dollar] ((RegisterFile.generalNames[r.toNat]?).getD []) =
        (RegisterFile.generalNames[r.toNat]?).getD [] := by
      cases hget : RegisterFile.generalNames[r.toNat]? with
      | none => rfl
      | some name =>
        exact of_decide_eq_true (List.all_eq_true.1 hnames name (List.mem_of_getElem? hget))
    rw [← hfull]
    unfold RegisterFile.find? RegisterFile.nameOf
    rw [List.tail_cons, hbare]
    rfl

theorem name_ne_nil (w : Spelling) (r : BitVec 5) : w.name r ≠ [] := by
  intro hnil
  have hfind := w.find?_name r
  rw [hnil] at hfind
  cases hfind

end Spelling

/-- A branch on an order as a text: a mnemonic, two registers and a label. -/
def orderText (name : Bytes) (first second : Spelling) (x y : BitVec 5) (gap : Nat)
    (label : Bytes) : Bytes :=
  name ++ Byte.space :: first.text x ++ Byte.comma :: second.text y ++
    Byte.comma :: (List.replicate gap Byte.space ++ label)

theorem bare_comma_blanks (n : Nat) {s : Bytes} (hcomma : Byte.comma ∉ s.head?) :
    bare (Byte.comma :: (List.replicate n Byte.space ++ s)) = Space.trim s := by
  have hdrop : (Byte.comma :: (List.replicate n Byte.space ++ s)).dropWhile (· == Byte.comma) =
      List.replicate n Byte.space ++ s := by
    rw [List.dropWhile_cons_of_pos (by rfl)]
    cases n with
    | succ n => rfl
    | zero =>
      cases s with
      | nil => rfl
      | cons c s =>
        have hne : c ≠ Byte.comma := fun h => hcomma (by rw [h]; rfl)
        simp [hne]
  have hblanks : ∀ b ∈ List.replicate n Byte.space, Byte.isBlank b = true := by
    intro b hb
    rw [List.eq_of_mem_replicate hb]
    rfl
  rw [bare, hdrop, Space.trim, Space.trimStart, Space.dropForms_blanks_append hblanks]
  rfl

theorem isPlain_of_toUpper {name : Bytes} {k : Order} (h : name.map Byte.toUpper = k.mnemonic) :
    ∀ b ∈ name, Byte.isPlain b = true := by
  intro b hb
  have hupper : ∀ a ∈ k.mnemonic, Byte.isUpper a = true := List.all_eq_true.1 (by cases k <;> rfl)
  have hmem := hupper (Byte.toUpper b) (h ▸ List.mem_map_of_mem hb)
  grind [Byte.isPlain, Byte.toUpper, Byte.isUpper, Byte.isLower]

theorem ofLine_orderText {name label : Bytes} {k : Order} (first second : Spelling) (x y : BitVec 5)
    (gap : Nat) (hname : name.map Byte.toUpper = k.mnemonic) (hne : label ≠ [])
    (hterm : ∀ b ∈ label, Byte.isTerm b = true) :
    Token.ofLine (orderText name first second x y gap label) =
      (k.mnemonic, [first.name x, Byte.comma :: second.text y,
        Byte.comma :: (List.replicate gap Byte.space ++ label)]) := by
  have hplain := isPlain_of_toUpper hname
  have hnil : name ≠ [] := by
    rintro rfl
    cases k <;> cases hname
  have hword : ∀ (a : UInt8) (s : Bytes), Token.isWordByte a = false →
      ∀ b ∈ (a :: s).head?, Token.isWordByte b = false := by
    intro a s ha b hb
    obtain rfl := Option.some.inj hb
    exact ha
  have hsecond : ∀ b ∈ second.name y, Byte.isTerm b = true :=
    fun b hb => Byte.isTerm_of_isPlain (second.name_isPlain y b hb)
  have hlast : Token.scan (Byte.comma :: (List.replicate gap Byte.space ++ label) ++ []) =
      [Byte.comma :: (List.replicate gap Byte.space ++ label)] :=
    Token.scan_comma_blanks gap hne hterm rfl
  rw [List.append_nil] at hlast
  have hscan : Token.scan (orderText name first second x y gap label) =
      [name, first.name x, Byte.comma :: second.text y,
        Byte.comma :: (List.replicate gap Byte.space ++ label)] := by
    unfold orderText
    rw [List.append_assoc, List.append_assoc, List.cons_append,
      Token.scan_word hnil hplain (hword Byte.space _ rfl), Token.scan_space, Spelling.text,
      List.append_assoc, Token.scan_replicate_space,
      List.cons_append,
      Token.scan_word (first.name_ne_nil x) (first.name_isPlain x) (hword Byte.comma _ rfl),
      ← List.cons_append, Spelling.text,
      Token.scan_comma_blanks second.blanks (second.name_ne_nil y) hsecond rfl, hlast]
  rw [Token.ofLine, hscan]
  simp only [upper_of_isPlain hplain, hname]

/-! ## Branches in a scope -/

/-- **Branches on an order decide it.** A line with such a branch, after labels or not, with its
registers with or without `$` and blanks after the commas, always has a form. In a scope where its
label is defined it is encoded as a comparison into `$at` and a branch on the outcome, and the words
of the scope have them after those of the lines before. Whatever the registers hold, the branch is
taken exactly if the order holds between the signed numbers in the two registers, and no register
but `$at` is changed. -/
theorem orderBranch_decides (t : DefinitionTable) (base : Word) (c d : Command) (k : Order)
    (name label : Bytes) (first second : Spelling) (x y : BitVec 5) (gap : Nat)
    (hline : instruction? c = some d)
    (htext : (d.name, d.args) = Token.ofLine (orderText name first second x y gap label))
    (hname : name.map Byte.toUpper = k.mnemonic) (hne : label ≠ [])
    (hterm : ∀ b ∈ label, Byte.isTerm b = true) (htrim : Space.trim label = label) :
    (∃ lines, instructionsOf t d = .ok lines) ∧
    ∀ pre post expanded, Expanded.ofCommands t (pre ++ c :: post) = .ok expanded →
      (∃ e ∈ pre ++ c :: post, Defines e label) →
      ∃ distance, Decides k x y (orderCode k x y distance) ∧
        (encodeFrom expanded.labels base (pre.flatMap (produced t)).length (produced t c)).words =
          .ok (orderCode k x y distance) ∧
        ∀ words, (assemble t base (pre ++ c :: post)).words = .ok words →
          ∃ before after, words = before ++ orderCode k x y distance ++ after ∧
            before.length = (pre.flatMap (produced t)).length := by
  rw [ofLine_orderText first second x y gap hname hne hterm] at htext
  obtain ⟨hmnemonic, hargs⟩ := Prod.mk.inj htext
  have hform := instructionsOf_order (t := t) hmnemonic hargs
  refine ⟨⟨_, hform⟩, fun pre post expanded hexpand hdefined => ?_⟩
  have hhead : ∀ {s : Bytes}, (∀ b ∈ s, Byte.isTerm b = true) → Byte.comma ∉ s.head? := by
    intro s hs hcomma
    exact absurd (hs _ (List.mem_of_mem_head? hcomma)) (by decide)
  have hx : RegisterFile.general.find? (bare (first.name x)) = some x := by
    rw [bare_of_isPlain (first.name_isPlain x), first.find?_name]
  have hy : RegisterFile.general.find? (bare (Byte.comma :: second.text y)) = some y := by
    have hplain := second.name_isPlain y
    rw [Spelling.text, bare_comma_blanks _ (hhead fun b hb => Byte.isTerm_of_isPlain (hplain b hb)),
      Space.trim_of_isPlain hplain, second.find?_name]
  have hbare : bare (Byte.comma :: (List.replicate gap Byte.space ++ label)) = label := by
    rw [bare_comma_blanks _ (hhead hterm), htrim]
  obtain ⟨e, he, hdefines⟩ := hdefined
  obtain ⟨pre', post', hsplit⟩ := List.append_of_mem he
  have hplace := (lookup_ofCommands hexpand label _).2 ⟨pre', e, post', hsplit, hdefines, rfl⟩
  have hwords :=
    words_order k d base (pre.flatMap (produced t)).length hx hy rfl (hbare.symm ▸ hplace)
  rw [← produced_of_instruction? hline hform] at hwords
  refine ⟨_, decides_orderCode k x y _, hwords, fun words hscope => ?_⟩
  obtain ⟨before, code, after, hparts, hlen, hcode⟩ := words_expanded hexpand hscope
  rw [hlen, hwords] at hcode
  obtain rfl := Except.ok.inj hcode
  exact ⟨before, after, hparts, hlen⟩

/-- A branch back to its own line, on `$at` and `$zero`. -/
def loopBranch : Command := Command.ofLine (ascii "loop: Ble $at,  zero, loop")

set_option maxRecDepth 8000 in
theorem orderBranch_decides_loop :
    (assemble {} 0 [Command.ofLine (ascii "nop"), loopBranch]).words =
      .ok [0, 0x0001082A, 0x1020FFFE] ∧ Decides .atMost 1 0 [0x0001082A, 0x1020FFFE] := by
  obtain ⟨-, hscope⟩ := orderBranch_decides {} 0 loopBranch _ .atMost (ascii "Ble") (ascii "loop")
    ⟨0, true⟩ ⟨2, false⟩ 1 0 1 rfl rfl rfl (by decide) (by decide) (by decide)
  obtain ⟨distance, hdecides, hwords, -⟩ := hscope [Command.ofLine (ascii "nop")] [] _ rfl
    ⟨loopBranch, by decide, ascii "LOOP", by decide, rfl⟩
  obtain hcode : [0x0001082A, 0x1020FFFE] = orderCode .atMost 1 0 distance := Except.ok.inj hwords
  exact ⟨by decide, hcode ▸ hdecides⟩

end Assembly

end CheatScript
