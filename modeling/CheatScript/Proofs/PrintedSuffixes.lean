import CheatScript.Proofs.InstructionWords
import CheatScript.Proofs.Reassembly

/-!
# Proofs: suffixes of printed mnemonics

What follows the full stop of a vector mnemonic is a destination mask or the interlock, and the
printer puts it back from the fields of the word. The printed mnemonic is found as a row with the
family and the opcode of the one that was assembled, with the same mask and interlock, unless the
full stop belongs to the mnemonic itself: such a row is printed with its suffix twice, and no row is
found by that name.
-/

namespace CheatScript

/-- The part before the first `c` holds no `c`. -/
theorem Bytes.not_mem_of_cut? {c : UInt8} {s l r : Bytes} (h : Bytes.cut? c s = some (l, r)) :
    c ∉ l := by
  induction s generalizing l r with
  | nil => cases h
  | cons b s ih =>
    rw [Bytes.cut?] at h
    split at h
    · obtain ⟨rfl, -⟩ := Prod.mk.inj (Option.some.inj h)
      exact List.not_mem_nil
    · rename_i hb
      obtain ⟨⟨l', r'⟩, hcut, hparts⟩ := Option.map_eq_some_iff.1 h
      obtain ⟨rfl, -⟩ := Prod.mk.inj hparts
      intro hmem
      rcases List.mem_cons.1 hmem with heq | hmem
      · exact hb heq.symm
      · exact ih hcut hmem

theorem Family.hasSuffix_cases {family : Family} (h : family.hasSuffix = true) :
    family = .cop2 ∨ family = .cop2Special1 ∨ family = .cop2Special2 := by
  simpa [Family.hasSuffix, Family.hasDest] using h

/-! ## Mnemonics with a suffix of their own -/

namespace Instruction

variable {e row : Instruction} {name : Bytes}

/-- Family and opcode of the rows with a suffix in the mnemonic. -/
def fixedCodes : List (Family × Nat) :=
  [(.cop2Special2, 0b0011111), (.cop2Special2, 0b0101110), (.cop2Special1, 0b101110)]

set_option maxRecDepth 16000 in
theorem table_fixedCodes :
    ∀ e ∈ table, (e.family, e.opcode) ∈ fixedCodes → e.mnemonic ∈ fixedSuffixes := by
  decide

set_option maxRecDepth 16000 in
theorem spelled?_fixedSuffixes :
    (fixedSuffixes.map fun name => (spelled? name).map fun e => (e.family, e.opcode)) =
      fixedCodes.map some := by
  rfl

theorem fixedSuffix_iff (he : e ∈ table) :
    e.mnemonic ∈ fixedSuffixes ↔ (e.family, e.opcode) ∈ fixedCodes := by
  constructor
  · intro hname
    have hmem := List.mem_map_of_mem
      (f := fun name => (spelled? name).map fun e => (e.family, e.opcode)) hname
    rw [spelled?_fixedSuffixes, spelled?_mnemonic he] at hmem
    simpa using hmem
  · exact table_fixedCodes e he

/-- A row whose full stop belongs to its mnemonic is found by that mnemonic only. -/
theorem name_eq_of_find? (hfind : find? name = some e) (hfixed : e.mnemonic ∈ fixedSuffixes) :
    name = e.mnemonic := by
  have hspelled : ∀ s, spelled? s = some e → s = e.mnemonic := by
    intro s hs
    have hname := List.find?_some hs
    exact (eq_of_beq hname).symm
  rw [find?] at hfind
  cases hname : spelled? name with
  | some row =>
    rw [hname] at hfind
    exact hspelled name (hname.trans hfind)
  | none =>
    rw [hname] at hfind
    cases hcut : cutSuffix? name with
    | none => simp [hcut] at hfind
    | some parts =>
      obtain ⟨stem, letters⟩ := parts
      simp only [hcut] at hfind
      -- the stem has no full stop, and the mnemonic has one
      have hstem := hspelled stem (Option.eq_some_of_filter_eq_some hfind)
      have hdot : Byte.dot ∈ e.mnemonic := List.contains_iff_mem.1
        (List.all_eq_true.1 (show (fixedSuffixes.all fun m => m.contains Byte.dot) = true from rfl)
          _ hfixed)
      exact absurd (hstem ▸ hdot) (Bytes.not_mem_of_cut? hcut)

set_option maxRecDepth 16000 in
theorem find?_fixedSuffixes :
    (fixedSuffixes.map fun name => find? (name ++ Byte.dot :: ascii "XYZ")) =
    [none, none, none] := by
  rfl

/-- No row is found by a mnemonic with its suffix twice. -/
theorem find?_suffix_twice (h : name ∈ fixedSuffixes) :
    find? (name ++ Byte.dot :: ascii "XYZ") = none := by
  have hmem := List.mem_map_of_mem (f := fun name => find? (name ++ Byte.dot :: ascii "XYZ")) h
  rw [find?_fixedSuffixes] at hmem
  simpa using hmem

end Instruction

/-! ## Fields of a suffix -/

namespace Assembly

open Instruction

variable {e : Instruction} {f g : Fields} {labels : Labels} {index : Nat} {name : Bytes}

/-- Operands fill neither the mask nor the interlock. -/
theorem readOperands_suffix {family : Family} {operands : List (Operand × Bytes)}
    (h : readOperands family labels index operands = .ok f) : f.dest = 0 ∧ f.interlock = 0 := by
  have hone : ∀ {f g : Fields} {o : Operand} {s : Bytes},
      readOperand family labels index f o s = .ok g →
      f.dest = 0 ∧ f.interlock = 0 → g.dest = 0 ∧ g.interlock = 0 := by
    intro f g o s hread hzero
    obtain ⟨source, rfl⟩ := readOperand_eq_fill hread
    exact ⟨(Fields.fillAll_dest f source [o]).trans hzero.1,
      (Fields.fillAll_interlock f source [o]).trans hzero.2⟩
  have hrest : ∀ (rest : List (Operand × Bytes)) (start : Fields), start.dest = 0 ∧
      start.interlock = 0 →
      rest.foldlM (readMarked family labels index) start = .ok f → f.dest = 0 ∧
      f.interlock = 0 := by
    intro rest
    induction rest with
    | nil =>
      intro start hstart hfold
      obtain rfl := Except.ok.inj hfold
      exact hstart
    | cons pair rest ih =>
      intro start hstart hfold
      rw [List.foldlM_cons] at hfold
      obtain ⟨next, hnext, hfold⟩ := Outcome.bind_eq_ok.1 hfold
      rw [readMarked] at hnext
      split at hnext
      · exact ih next (hone hnext hstart) hfold
      · cases hnext
  cases operands with
  | nil =>
    obtain rfl := Except.ok.inj h
    exact ⟨rfl, rfl⟩
  | cons pair rest =>
    obtain ⟨first, hfirst, hfold⟩ := Outcome.bind_eq_ok.1 h
    exact hrest rest first (hone hfirst ⟨rfl, rfl⟩) hfold

/-- A suffix is read into the mask and the interlock, whatever the operands are; a family without a
place for one of them leaves it zero. -/
theorem readSuffix_fields {family : Family} (hf : f.dest = 0 ∧ f.interlock = 0)
    (h : readSuffix family name f = .ok g) :
    readSuffix family name {} = .ok { dest := g.dest, interlock := g.interlock } ∧
      (family.hasDest = false → g.dest = 0) ∧ (family ≠ .cop2 → g.interlock = 0) := by
  obtain ⟨hdest, hlock⟩ := hf
  rw [readSuffix] at h ⊢
  cases hcut : cutSuffix? name with
  | none =>
    simp only [hcut] at h ⊢
    obtain rfl := Except.ok.inj h
    rw [hdest, hlock]
    exact ⟨rfl, fun _ => rfl, fun _ => rfl⟩
  | some parts =>
    obtain ⟨stem, letters⟩ := parts
    simp only [hcut] at h ⊢
    by_cases hfam : family = .cop2
    · rw [if_pos hfam] at h ⊢
      split at h
      · rename_i hletters
        obtain rfl := Except.ok.inj h
        rw [if_pos hletters, hdest]
        exact ⟨rfl, fun _ => rfl, fun hne => absurd hfam hne⟩
      · cases h
    · rw [if_neg hfam] at h ⊢
      cases hhas : family.hasDest with
      | true =>
        rw [if_pos hhas] at h
        obtain ⟨mask, hmask, h⟩ := Outcome.bind_eq_ok.1 h
        obtain rfl := Outcome.pure_eq_ok.1 h
        refine ⟨?_, fun hnot => (Bool.noConfusion hnot), fun _ => hlock⟩
        rw [if_pos rfl, hmask, hlock]
        rfl
      | false =>
        rw [if_neg (by rw [hhas]; exact Bool.false_ne_true)] at h
        obtain rfl := Except.ok.inj h
        rw [hdest, hlock]
        exact ⟨rfl, fun _ => rfl, fun _ => rfl⟩

end Assembly

/-! ## The printed mnemonic -/

namespace Disassembly

open Instruction Assembly

variable {e row : Instruction} {f : Fields} {c : Command} {labels : Labels} {index : Nat}
    {w pc : Word}

/-- The mnemonic in the text of a word: what stands before the first blank. -/
def printedMnemonic (d : Decoded) : Bytes := (text d).takeWhile (· != Byte.space)

/-- A plain name in front of terms ends at the first blank. -/
theorem takeWhile_printed {name : Bytes} (hname : ∀ c ∈ name, Byte.isPlain c = true)
    (terms : List Bytes) : (Token.printed name terms).takeWhile (· != Byte.space) = name := by
  have hsolid : ∀ c ∈ name, (c != Byte.space) = true := by
    intro c hc
    have hbounds := Byte.isPlain_bounds (hname c hc)
    grind
  cases terms with
  | nil =>
    rw [Token.printed, ← List.append_nil name, List.takeWhile_append_of_pos hsolid,
      List.takeWhile_nil]
  | cons first rest =>
    have hblank : ascii " " = [Byte.space] := rfl
    rw [Token.printed, hblank, List.append_assoc, List.takeWhile_append_of_pos hsolid,
      List.singleton_append, List.takeWhile_cons_of_neg (by decide), List.append_nil]

theorem printedMnemonic_eq (hrow : row ∈ table) (hw : w ≠ 0) :
    printedMnemonic ⟨pc, w, some row, f⟩ = mnemonicText row f := by
  have htext : text ⟨pc, w, some row, f⟩ = instructionText row pc f := if_neg hw
  rw [printedMnemonic, htext, instructionText_eq, takeWhile_printed (mnemonicText_isPlain hrow)]

/-- The word of a vector instruction is not the one of no operation. -/
theorem pack_ne_zero (hs : e.family.hasSuffix = true) (f : Fields) : e.pack f ≠ 0 := by
  have hmajor : e.major = 0b010010#6 := by
    rw [major]
    rcases Family.hasSuffix_cases hs with hfam | hfam | hfam <;> rw [hfam]
  intro hzero
  have hbits := extract_major e f
  rw [hzero, hmajor] at hbits
  exact absurd hbits (by decide)

/-- The operands and the suffix of a vector instruction are in range whenever they can be read. -/
theorem inRange_of_filledBy (he : e ∈ table) (hs : e.family.hasSuffix = true)
    (hfilled : f.FilledBy e.operands) (hdest : e.family.hasDest = false → f.dest = 0)
    (hlock : e.family ≠ .cop2 → f.interlock = 0) : InRange e f := by
  have hfamily : e.family.hasImmediate = false ∧ e.family ≠ .jump := by
    rcases Family.hasSuffix_cases hs with hfam | hfam | hfam <;> rw [hfam] <;>
      exact ⟨rfl, by decide⟩
  have himm : f.imm = 0 := immediate_eq_zero he hfilled hfamily.1 hfamily.2
  refine ⟨hfilled, fun _ => ?_, fun hjump => absurd hjump hfamily.2, hdest, hlock⟩
  rw [himm]
  decide

/-- What is printed for the word of a vector instruction: the mnemonic of an alias, with the mask
and the interlock that were read from the suffix. -/
theorem printed_of_encode (h : encode labels index c = .ok w) (he : find? c.name = some e)
    (hs : e.family.hasSuffix = true) (pc : Word) :
    ∃ row ∈ table, ∃ f : Fields, row.family = e.family ∧ row.opcode = e.opcode ∧
      readSuffix e.family c.name {} = .ok { dest := f.dest, interlock := f.interlock } ∧
      (e.family.hasDest = false → f.dest = 0) ∧ (e.family ≠ .cop2 → f.interlock = 0) ∧
      printedMnemonic (decode w pc) = mnemonicText row f := by
  obtain ⟨e', start, f, hfind, hlen, hops, hsuffix, rfl⟩ := encode_eq_ok h
  obtain rfl : e' = e := Option.some.inj (hfind.symm.trans he)
  have hmem := mem_table_of_find? hfind
  obtain ⟨hread, hdest, hlock⟩ := readSuffix_fields (readOperands_suffix hops) hsuffix
  have hrange := inRange_of_filledBy hmem hs (filledBy_of_read hlen hops hsuffix) hdest hlock
  obtain ⟨row, hrow, hfam, hop, hdecode⟩ := decode_eq_of_inRange hmem hrange pc
  refine ⟨row, hrow, f, hfam, hop, hread, hdest, hlock, ?_⟩
  rw [hdecode, printedMnemonic_eq hrow (pack_ne_zero hs f)]

/-- Whether a name stands for an instruction with the family and the opcode of a row, and its suffix
for the given mask and interlock. -/
def Names (name : Bytes) (e : Instruction) (suffix : Fields) : Prop :=
  ∃ row, find? name = some row ∧ row.family = e.family ∧ row.opcode = e.opcode ∧
    readSuffix row.family name {} = .ok suffix

/-- The printed mnemonic of a row without a suffix of its own names it. -/
theorem names_mnemonicText (hrow : row ∈ table) (hfixed : row.mnemonic ∉ fixedSuffixes)
    (hfam : row.family = e.family) (hop : row.opcode = e.opcode)
    (hdest : e.family.hasDest = false → f.dest = 0) (hlock : e.family ≠ .cop2 → f.interlock = 0) :
    Names (Bytes.upper (mnemonicText row f)) e { dest := f.dest, interlock := f.interlock } := by
  rw [← hfam] at hdest hlock
  exact ⟨row, find?_upper_mnemonicText hrow hfixed, hfam, hop,
    readSuffix_upper_mnemonicText hrow hfixed hdest hlock rfl rfl⟩

/-- The suffix in a mnemonic itself is read as the mask `xyz`. -/
theorem readSuffix_fixed {family : Family} {name : Bytes} (hname : name ∈ fixedSuffixes)
    (hdest : family.hasDest = true) : readSuffix family name {} = .ok { dest := 0b1110#4 } := by
  have hcop2 : family ≠ .cop2 := by
    rintro rfl
    cases hdest
  have hcut : ∃ stem, cutSuffix? name = some (stem, ascii "XYZ") := by
    simp only [fixedSuffixes, List.map_cons, List.map_nil, List.mem_cons, List.not_mem_nil,
      or_false] at hname
    rcases hname with rfl | rfl | rfl
    · exact ⟨ascii "VCLIPW", rfl⟩
    · exact ⟨ascii "VOPMULA", rfl⟩
    · exact ⟨ascii "VOPMSUB", rfl⟩
  obtain ⟨stem, hcut⟩ := hcut
  rw [readSuffix, hcut]
  simp only [if_neg hcop2, if_pos hdest]
  rfl

/-- A row with a suffix of its own is printed with the suffix twice. -/
theorem upper_mnemonicText_fixed (hrow : row ∈ table) (hdest : row.family.hasDest = true)
    (hmask : f.dest = 0b1110#4) (hlock : f.interlock = 0) :
    Bytes.upper (mnemonicText row f) = row.mnemonic ++ Byte.dot :: ascii "XYZ" := by
  have hsuffix : suffixText row f = ascii ".xyz" := by
    rw [suffixText, hlock, hmask]
    simp only [bne_self_eq_false, Bool.and_false, Bool.false_eq_true, if_false,
      Family.hasSuffix, hdest, Bool.or_true, Bool.true_and]
    rfl
  rw [upper_mnemonicText hrow, hsuffix]
  rfl

/-- **Suffixes survive printing.** The word of a vector instruction, assembled from any operands, is
printed with a mnemonic that names, in upper case, its family, its opcode, its mask and its
interlock, if and only if the mnemonic has no suffix of its own in the table. -/
theorem printedMnemonic_names_iff (h : encode labels index c = .ok w) (he : find? c.name = some e)
    (hs : e.family.hasSuffix = true) (pc : Word) :
    ∃ suffix, readSuffix e.family c.name {} = .ok suffix ∧
      (Names (Bytes.upper (printedMnemonic (decode w pc))) e suffix ↔
        e.mnemonic ∉ ["VCLIPW.XYZ", "VOPMULA.XYZ", "VOPMSUB.XYZ"].map ascii) := by
  obtain ⟨row, hrow, f, hfam, hop, hread, hdest, hlock, hprinted⟩ := printed_of_encode h he hs pc
  have hmem := mem_table_of_find? he
  -- aliases have a suffix of their own together
  have halias : row.mnemonic ∈ fixedSuffixes ↔ e.mnemonic ∈ fixedSuffixes := by
    rw [fixedSuffix_iff hrow, fixedSuffix_iff hmem, hfam, hop]
  refine ⟨_, hread, ?_⟩
  rw [hprinted]
  constructor
  · rintro ⟨found, hfound, -⟩ hfixed
    have hhas : e.family.hasDest = true := by
      have hcode := (fixedSuffix_iff hmem).1 hfixed
      simp only [fixedCodes, List.mem_cons, Prod.mk.injEq, List.not_mem_nil, or_false] at hcode
      rcases hcode with ⟨hcode, -⟩ | ⟨hcode, -⟩ | ⟨hcode, -⟩ <;> rw [hcode] <;> rfl
    rw [name_eq_of_find? he hfixed, readSuffix_fixed hfixed hhas] at hread
    obtain ⟨hmask, hbit⟩ : 0b1110#4 = f.dest ∧ 0 = f.interlock := by
      simpa using Except.ok.inj hread
    rw [upper_mnemonicText_fixed hrow (hfam ▸ hhas) hmask.symm hbit.symm,
      find?_suffix_twice (halias.2 hfixed)] at hfound
    cases hfound
  · intro hfixed
    exact names_mnemonicText hrow (fun hmem => hfixed (halias.1 hmem)) hfam hop hdest hlock

/-- An addition whose mask has its letters out of order. -/
def maskedAddition : Command := Command.ofLine (ascii "vadd.xwz $vf1,$vf2,$vf3")

set_option maxRecDepth 16000 in
theorem maskedAddition_encoded :
    encode [] 0 maskedAddition = .ok 0x4B631068#32 ∧
      find? maskedAddition.name = some (entry "VADD" .cop2Special1 0b101000 [.vfd, .vfs, .vft]) ∧
      readSuffix .cop2Special1 maskedAddition.name {} = .ok { dest := 0b1011#4 } :=
  ⟨rfl, rfl, rfl⟩

theorem printedMnemonic_names_mask :
    encode [] 0 maskedAddition = .ok 0x4B631068#32 ∧
      find? maskedAddition.name = some (entry "VADD" .cop2Special1 0b101000 [.vfd, .vfs, .vft]) ∧
      Names (Bytes.upper (printedMnemonic (decode 0x4B631068#32 0)))
        (entry "VADD" .cop2Special1 0b101000 [.vfd, .vfs, .vft]) { dest := 0b1011#4 } := by
  obtain ⟨hencode, hfind, hread⟩ := maskedAddition_encoded
  obtain ⟨suffix, hsuffix, hnames⟩ := printedMnemonic_names_iff hencode hfind rfl 0
  obtain rfl := Except.ok.inj (hread.symm.trans hsuffix)
  exact ⟨hencode, hfind, hnames.2 (by decide)⟩

/-- The clipping test, whose mnemonic ends in a suffix. -/
def clippingTest : Command := Command.ofLine (ascii "vclipw.xyz $vf1,$vf2")

set_option maxRecDepth 16000 in
/-- The word of `vclipw.xyz` is printed with the mnemonic `vclipw.xyz.xyz`, by which nothing is
found. -/
theorem printedMnemonic_clipping :
    encode [] 0 clippingTest = .ok 0x4BC209FF#32 ∧
      find? clippingTest.name = some (entry "VCLIPW.XYZ" .cop2Special2 0b0011111 [.vfs, .vft]) ∧
      readSuffix .cop2Special2 clippingTest.name {} = .ok { dest := 0b1110#4 } ∧
      printedMnemonic (decode 0x4BC209FF#32 0) = ascii "vclipw.xyz.xyz" ∧
      find? (Bytes.upper (printedMnemonic (decode 0x4BC209FF#32 0))) = none := by
  have hprinted : printedMnemonic (decode 0x4BC209FF#32 0) = ascii "vclipw.xyz.xyz" := by
    decide +kernel
  refine ⟨rfl, rfl, rfl, hprinted, ?_⟩
  rw [hprinted]
  exact find?_suffix_twice (show ascii "VCLIPW.XYZ" ∈ fixedSuffixes by decide)

end Disassembly

end CheatScript
