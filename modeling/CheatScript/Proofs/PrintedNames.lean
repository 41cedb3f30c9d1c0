import CheatScript.Assembly.Encoding
import CheatScript.Disassembly
import CheatScript.Proofs.InstructionNames
import CheatScript.Proofs.Numerals
import CheatScript.Proofs.PrintedLines

/-!
# Proofs: printed names are read back

The printed name of an instruction, with the suffix for its destination mask or interlock, is found
as the same row of the table, and its suffix is read as the same mask and interlock. Registers are
found by their printed names.
-/

namespace CheatScript

theorem Family.hasSuffix_eq_false {family : Family} :
    family.hasSuffix = false ↔ family ≠ .cop2 ∧ family.hasDest = false := by
  simp [Family.hasSuffix]

namespace Instruction

variable {e : Instruction} {f : Fields}

/-! ## Mnemonics -/

theorem toUpper_toLower {c : UInt8} (h : isNameByte c = true) :
    Byte.toUpper (Byte.toLower c) = c := by
  grind [isNameByte, Byte.toUpper, Byte.toLower, Byte.isUpper, Byte.isLower, Byte.isDigit]

theorem isPlain_toLower {c : UInt8} (h : isNameByte c = true) :
    Byte.isPlain (Byte.toLower c) = true := by
  grind [isNameByte, Byte.isPlain, Byte.toLower, Byte.isUpper, Byte.isLower, Byte.isDigit]

theorem lt_of_isPlain {c : UInt8} (h : Byte.isPlain c = true) : c < 0x80 := by
  have hbounds := Byte.isPlain_bounds h
  grind

theorem upper_of_isPlain {s : Bytes} (h : ∀ c ∈ s, Byte.isPlain c = true) :
    Bytes.upper s = s.map Byte.toUpper := by
  have hascii : Bytes.isAscii s = true :=
    List.all_eq_true.2 fun c hc => decide_eq_true (lt_of_isPlain (h c hc))
  rw [Bytes.upper, if_pos hascii]

theorem mnemonic_bytes (he : e ∈ table) : ∀ c ∈ e.mnemonic, isNameByte c = true :=
  List.all_eq_true.1 (table_regular e he).bytes

theorem lower_isPlain (he : e ∈ table) : ∀ c ∈ Bytes.lower e.mnemonic, Byte.isPlain c = true := by
  intro c hc
  obtain ⟨b, hb, rfl⟩ := List.mem_map.1 hc
  exact isPlain_toLower (mnemonic_bytes he b hb)

theorem map_toUpper_lower (he : e ∈ table) :
    (Bytes.lower e.mnemonic).map Byte.toUpper = e.mnemonic := by
  rw [Bytes.lower, List.map_map]
  refine (List.map_congr_left fun c hc => ?_).trans (List.map_id _)
  exact toUpper_toLower (mnemonic_bytes he c hc)

/-! ## Suffixes -/

/-- What the printed name of an instruction has after its mnemonic. -/
def suffixText (e : Instruction) (f : Fields) : Bytes :=
  if e.family = .cop2 && f.interlock != 0 then ascii ".i"
  else if e.family.hasSuffix && f.dest != 0 then ascii "." ++ Disassembly.destLetters f.dest
  else []

theorem mnemonicText_eq (e : Instruction) (f : Fields) :
    Disassembly.mnemonicText e f = Bytes.lower e.mnemonic ++ suffixText e f := by
  unfold Disassembly.mnemonicText suffixText
  split
  · rfl
  · split
    · rw [List.append_assoc]
    · rw [List.append_nil]

theorem destLetters_isPlain (dest : BitVec 4) :
    ∀ c ∈ Disassembly.destLetters dest, Byte.isPlain c = true := by
  intro c hc
  obtain ⟨⟨i, letter⟩, hmem, hletter⟩ := List.mem_filterMap.1 hc
  have hc' : letter = c := by
    dsimp only at hletter
    split at hletter
    · exact Option.some.inj hletter
    · cases hletter
  subst hc'
  simp only [List.mem_cons, Prod.mk.injEq, List.not_mem_nil, or_false] at hmem
  rcases hmem with ⟨-, rfl⟩ | ⟨-, rfl⟩ | ⟨-, rfl⟩ | ⟨-, rfl⟩
  all_goals decide

theorem suffixText_isPlain (e : Instruction) (f : Fields) :
    ∀ c ∈ suffixText e f, Byte.isPlain c = true := by
  unfold suffixText
  split
  · exact List.all_eq_true.1 (by decide)
  · split
    · intro c hc
      rcases List.mem_append.1 hc with hdot | hletters
      · obtain rfl := List.mem_singleton.1 hdot
        decide
      · exact destLetters_isPlain f.dest c hletters
    · intro c hc
      cases hc

theorem mnemonicText_isPlain (he : e ∈ table) :
    ∀ c ∈ Disassembly.mnemonicText e f, Byte.isPlain c = true := by
  rw [mnemonicText_eq]
  exact List.forall_mem_append.2 ⟨lower_isPlain he, suffixText_isPlain e f⟩

theorem mnemonicText_ne_nil (he : e ∈ table) : Disassembly.mnemonicText e f ≠ [] := by
  have hne := (table_regular e he).nonempty
  rw [mnemonicText_eq]
  simp [Bytes.lower, hne]

/-- A printed name in upper case. -/
theorem upper_mnemonicText (he : e ∈ table) :
    Bytes.upper (Disassembly.mnemonicText e f) =
      e.mnemonic ++ (suffixText e f).map Byte.toUpper := by
  rw [upper_of_isPlain (mnemonicText_isPlain he), mnemonicText_eq, List.map_append,
    map_toUpper_lower he]

/-- The three forms of a suffix. -/
theorem suffixText_cases (e : Instruction) (f : Fields) :
    (suffixText e f = [] ∧ (e.family = .cop2 → f.interlock = 0) ∧
      (e.family.hasSuffix = true → f.dest = 0)) ∨
    (e.family = .cop2 ∧ f.interlock = 1 ∧
      (suffixText e f).map Byte.toUpper = Byte.dot :: ascii "I") ∨
    (e.family.hasSuffix = true ∧ (e.family = .cop2 → f.interlock = 0) ∧ f.dest ≠ 0 ∧
      (suffixText e f).map Byte.toUpper =
        Byte.dot :: (Disassembly.destLetters f.dest).map Byte.toUpper) := by
  have hbit : f.interlock = 0 ∨ f.interlock = 1 := by
    have hall : ∀ b : BitVec 1, b = 0 ∨ b = 1 := by decide
    exact hall f.interlock
  unfold suffixText
  by_cases hlock : e.family = .cop2 ∧ f.interlock = 1
  · refine .inr (.inl ⟨hlock.1, hlock.2, ?_⟩)
    rw [if_pos (by simp [hlock.1, hlock.2])]
    rfl
  · have hzero : e.family = .cop2 → f.interlock = 0 := fun hfam =>
      hbit.resolve_right fun hone => hlock ⟨hfam, hone⟩
    have hif : (decide (e.family = .cop2) && f.interlock != 0) = false := by
      by_cases hfam : e.family = .cop2
      · simp [hzero hfam]
      · simp [hfam]
    rw [if_neg (by rw [hif]; exact Bool.false_ne_true)]
    by_cases hdest : e.family.hasSuffix = true ∧ f.dest ≠ 0
    · refine .inr (.inr ⟨hdest.1, hzero, hdest.2, ?_⟩)
      rw [if_pos (Bool.and_eq_true_iff.2 ⟨hdest.1, bne_iff_ne.2 hdest.2⟩)]
      rfl
    · refine .inl ⟨?_, hzero, fun hs => ?_⟩
      · rw [if_neg]
        simpa using hdest
      · by_contra hne
        exact hdest ⟨hs, hne⟩

end Instruction

/-! ## Cutting at a byte -/

namespace Bytes

theorem cut?_append {c : UInt8} {s : Bytes} (h : c ∉ s) (t : Bytes) :
    cut? c (s ++ c :: t) = some (s, t) := by
  induction s with
  | nil => simp [cut?]
  | cons b s ih =>
    obtain ⟨hb, hs⟩ : c ≠ b ∧ c ∉ s := by simpa using h
    simp [cut?, Ne.symm hb, ih hs]

theorem cut?_eq_none {c : UInt8} {s : Bytes} (h : c ∉ s) : cut? c s = none := by
  induction s with
  | nil => rfl
  | cons b s ih =>
    obtain ⟨hb, hs⟩ : c ≠ b ∧ c ∉ s := by simpa using h
    simp [cut?, Ne.symm hb, ih hs]

end Bytes

namespace Instruction

variable {e : Instruction} {f : Fields}

theorem upper_mnemonicText_cases (he : e ∈ table) :
    Bytes.upper (Disassembly.mnemonicText e f) = e.mnemonic ∨ (e.family.hasSuffix = true ∧
      ∃ letters, Bytes.upper (Disassembly.mnemonicText e f) = e.mnemonic ++ Byte.dot ::
        letters) := by
  rw [upper_mnemonicText he]
  rcases suffixText_cases e f with ⟨hnil, -, -⟩ | ⟨hfam, -, hsuffix⟩ | ⟨hs, -, -, hsuffix⟩
  · left
    rw [hnil, List.map_nil, List.append_nil]
  · right
    exact ⟨by rw [hfam]; rfl, ascii "I", by rw [hsuffix]⟩
  · right
    exact ⟨hs, (Disassembly.destLetters f.dest).map Byte.toUpper, by rw [hsuffix]⟩

theorem upper_mnemonicText_plain (he : e ∈ table) (hs : e.family.hasSuffix = false) :
    Bytes.upper (Disassembly.mnemonicText e f) = e.mnemonic := by
  rcases upper_mnemonicText_cases (f := f) he with hplain | ⟨hs', -⟩
  · exact hplain
  · rw [hs] at hs'
    cases hs'

theorem dot_not_mem (he : e ∈ table) (hs : e.family.hasSuffix = true)
    (hfixed : e.mnemonic ∉ fixedSuffixes) : Byte.dot ∉ e.mnemonic :=
  fun hdot => hfixed ((table_regular e he).dot hs hdot)

/-- A mnemonic with a suffix is no other name. -/
theorem suffixed_ne (he : e ∈ table) (hs : e.family.hasSuffix = true)
    (hfixed : e.mnemonic ∉ fixedSuffixes)
    (letters : Bytes) {name : Bytes} (hname : name ∈ table.map (·.mnemonic) ++ formNames) :
    e.mnemonic ++ Byte.dot :: letters ≠ name := by
  rintro rfl
  refine not_mem_of_isApart ((table_regular e he).stem hs) (List.mem_filterMap.2 ⟨_, hname, ?_⟩)
  rw [cutSuffix?, Bytes.cut?_append (dot_not_mem he hs hfixed)]
  rfl

theorem find?_mnemonic (he : e ∈ table) : find? e.mnemonic = some e := by
  rw [find?, spelled?_mnemonic he]

theorem find?_suffixed (he : e ∈ table) (hs : e.family.hasSuffix = true)
    (hfixed : e.mnemonic ∉ fixedSuffixes) (letters : Bytes) :
    find? (e.mnemonic ++ Byte.dot :: letters) = some e := by
  have hnone : spelled? (e.mnemonic ++ Byte.dot :: letters) = none := by
    refine List.find?_eq_none.2 fun row hrow hname => ?_
    have heq : row.mnemonic = e.mnemonic ++ Byte.dot :: letters := by simpa using hname
    exact suffixed_ne he hs hfixed letters (List.mem_append_left _ (List.mem_map_of_mem hrow))
      heq.symm
  rw [find?, hnone, cutSuffix?, Bytes.cut?_append (dot_not_mem he hs hfixed)]
  simp [spelled?_mnemonic he, hs]

/-- The printed name of an instruction is found as its row. -/
theorem find?_upper_mnemonicText (he : e ∈ table) (hfixed : e.mnemonic ∉ fixedSuffixes) :
    find? (Bytes.upper (Disassembly.mnemonicText e f)) = some e := by
  rcases upper_mnemonicText_cases (f := f) he with hplain | ⟨hs, letters, hsuffixed⟩
  · rw [hplain, find?_mnemonic he]
  · rw [hsuffixed, find?_suffixed he hs hfixed letters]

end Instruction

namespace Assembly

variable {e : Instruction} {f g : Fields}

open Instruction

theorem destMask_destLetters (dest : BitVec 4) (h : dest ≠ 0) :
    destMask ((Disassembly.destLetters dest).map Byte.toUpper) = .ok dest := by
  have hall : dest = 1 ∨ dest = 2 ∨ dest = 3 ∨ dest = 4 ∨ dest = 5 ∨ dest = 6 ∨ dest = 7 ∨
      dest = 8 ∨
      dest = 9 ∨ dest = 10 ∨ dest = 11 ∨ dest = 12 ∨ dest = 13 ∨ dest = 14 ∨ dest = 15 := by
    revert h
    revert dest
    decide
  rcases hall with rfl | rfl | rfl | rfl | rfl | rfl | rfl | rfl | rfl | rfl | rfl | rfl | rfl |
    rfl | rfl <;> rfl

/-- The suffix of a printed name is read as the mask and the interlock it was printed for. -/
theorem readSuffix_upper_mnemonicText (he : e ∈ table) (hfixed : e.mnemonic ∉ fixedSuffixes)
    (hdest : e.family.hasDest = false → f.dest = 0) (hlock : e.family ≠ .cop2 → f.interlock = 0)
    (hgdest : g.dest = 0) (hglock : g.interlock = 0) :
    readSuffix e.family (Bytes.upper (Disassembly.mnemonicText e f)) g =
      .ok { g with dest := f.dest, interlock := f.interlock } := by
  rw [upper_mnemonicText he]
  rcases suffixText_cases e f with ⟨hnil, hbit, hmask⟩ | ⟨hfam, hbit, hsuffix⟩ |
    ⟨hs, hbit, hmask, hsuffix⟩
  · -- without a suffix both are zero, and no family with suffixes has a full stop in its mnemonic
    have hdest0 : f.dest = 0 := by
      cases hs : e.family.hasSuffix with
      | true => exact hmask hs
      | false => exact hdest (Family.hasSuffix_eq_false.1 hs).2
    have hlock0 : f.interlock = 0 := by
      by_cases hfam : e.family = .cop2
      · exact hbit hfam
      · exact hlock hfam
    have hsame : { g with dest := f.dest, interlock := f.interlock } = g := by
      rw [hdest0, hlock0, ← hgdest, ← hglock]
    rw [hsame, hnil, List.map_nil, List.append_nil, readSuffix, cutSuffix?]
    cases hs : e.family.hasSuffix with
    | true => rw [Bytes.cut?_eq_none (dot_not_mem he hs hfixed)]
    | false =>
      obtain ⟨hcop2, hdest'⟩ := Family.hasSuffix_eq_false.1 hs
      cases Bytes.cut? Byte.dot e.mnemonic with
      | none => rfl
      | some parts => simp [hcop2, hdest']
  · have hs : e.family.hasSuffix = true := by rw [hfam]; rfl
    have hdest0 : f.dest = 0 := hdest (by rw [hfam]; rfl)
    rw [hsuffix, readSuffix, cutSuffix?, Bytes.cut?_append (dot_not_mem he hs hfixed)]
    simp [hfam, hbit, hdest0, hgdest]
  · have hdest' : e.family.hasDest = true := by
      by_contra hnone
      exact hmask (hdest (by simpa using hnone))
    have hcop2 : e.family ≠ .cop2 := by
      intro hfam
      rw [hfam] at hdest'
      cases hdest'
    rw [hsuffix, readSuffix, cutSuffix?, Bytes.cut?_append (dot_not_mem he hs hfixed)]
    simp [hcop2, hdest', destMask_destLetters f.dest hmask, hlock hcop2, hglock]

end Assembly

/-! ## Registers -/

namespace RegisterFile

theorem find?_nameOf {file : RegisterFile} {r : BitVec 5} (h : file = .integer → r.toNat < 16) :
    file.find? (file.nameOf r) = some r := by
  cases file with
  | general =>
    have hall : ∀ r : BitVec 5, find? .general (nameOf .general r) = some r := by decide +kernel
    exact hall r
  | float =>
    have hall : ∀ r : BitVec 5, find? .float (nameOf .float r) = some r := by decide +kernel
    exact hall r
  | vector =>
    have hall : ∀ r : BitVec 5, find? .vector (nameOf .vector r) = some r := by decide +kernel
    exact hall r
  | integer =>
    have hall : ∀ r : BitVec 5, r.toNat < 16 → find? .integer (nameOf .integer r) = some r := by
      decide +kernel
    exact hall r (h rfl)

theorem nameOf_isPlain (file : RegisterFile) (r : BitVec 5) :
    ∀ c ∈ file.nameOf r, Byte.isPlain c = true := by
  have hall : ∀ r : BitVec 5, (file.nameOf r).all Byte.isPlain = true := by
    cases file <;> decide +kernel
  exact List.all_eq_true.1 (hall r)

end RegisterFile

end CheatScript
