import CheatScript.Proofs.AssemblerForms

/-!
# Proofs: disassembled instructions assemble again

Every word the assembler emits is read as an instruction. The text of an instruction, as a line by
itself, is assembled to the word it was read from, apart from branches, whose label is a name of
another line, and the three vector instructions whose mnemonic has a suffix of its own.
-/

namespace CheatScript

namespace Disassembly

open Instruction

variable {e : Instruction} {f : Fields} {pc : Word}

/-- The terms after the name of a printed instruction. -/
def terms (e : Instruction) (pc : Word) (f : Fields) : List Bytes := match e.operands with
  | [target, .imm, base] =>
    if e.mnemonic ∈ loadStores then
      [operandText e pc f target,
        signedHex f.imm.toInt ++ ascii "(" ++ operandText e pc f base ++ ascii ")"]
    else [target, .imm, base].map (operandText e pc f)
  | operands => operands.map (operandText e pc f)

theorem instructionText_eq (e : Instruction) (pc : Word) (f : Fields) :
    instructionText e pc f = Token.printed (mnemonicText e f) (terms e pc f) := by
  unfold instructionText terms
  split
  · rename_i hops
    simp only [hops, List.map_nil, Token.printed]
  · rename_i target base hops
    simp only [hops]
    split
    · simp only [Token.printed, Bytes.join, List.append_assoc]
    · rfl
  · rename_i hnil hshape
    split
    · rename_i target base hops
      exact absurd hops (hshape target base)
    · cases hops : e.operands with
      | nil => exact absurd hops hnil
      | cons o operands => rfl

theorem terms_of_loadStore {target base : Operand} (hops : e.operands = [target, .imm, base])
    (hload : e.mnemonic ∈ loadStores) :
    terms e pc f = [operandText e pc f target,
      signedHex f.imm.toInt ++ ascii "(" ++ operandText e pc f base ++ ascii ")"] := by
  rw [terms, hops]
  simp only [if_pos hload]

theorem terms_of_not_loadStore (hload : e.mnemonic ∉ loadStores) :
    terms e pc f = e.operands.map (operandText e pc f) := by
  unfold terms
  split
  · rename_i hops
    rw [if_neg hload, hops]
  · rfl

theorem parenthesis_isTerm {offset base : Bytes} (hoffset : ∀ c ∈ offset, Byte.isPlain c = true)
    (hbase : ∀ c ∈ base, Byte.isPlain c = true) :
    ∀ c ∈ offset ++ ascii "(" ++ base ++ ascii ")", Byte.isTerm c = true := by
  simp only [List.forall_mem_append]
  refine ⟨⟨⟨?_, List.all_eq_true.1 (by decide)⟩, ?_⟩, List.all_eq_true.1 (by decide)⟩
  · exact fun c hc => Byte.isTerm_of_isPlain (hoffset c hc)
  · exact fun c hc => Byte.isTerm_of_isPlain (hbase c hc)

/-- Every term is one that the scanner keeps together. -/
theorem terms_isTerm (e : Instruction) (pc : Word) (f : Fields) :
    ∀ t ∈ terms e pc f, t ≠ [] ∧ ∀ c ∈ t, Byte.isTerm c = true := by
  have hone : ∀ o, operandText e pc f o ≠ [] ∧ ∀ c ∈ operandText e pc f o, Byte.isTerm c = true :=
    fun o => ⟨operandText_ne_nil e pc f o, fun c hc =>
      Byte.isTerm_of_isPlain (operandText_isPlain e pc f o c hc)⟩
  have hmap : ∀ operands : List Operand, ∀ t ∈ operands.map (operandText e pc f),
      t ≠ [] ∧ ∀ c ∈ t, Byte.isTerm c = true := by
    intro operands t ht
    obtain ⟨o, -, rfl⟩ := List.mem_map.1 ht
    exact hone o
  unfold terms
  split
  · rename_i target base hops
    split
    · intro t ht
      rcases List.mem_pair.1 ht with rfl | rfl
      · exact hone target
      · refine ⟨?_, parenthesis_isTerm (signedHex_isPlain _) (operandText_isPlain e pc f base)⟩
        simp [signedHex_ne_nil]
    · exact hmap _
  · exact hmap _

theorem terms_head_isPlain (e : Instruction) (pc : Word) (f : Fields) :
    ∀ t ∈ (terms e pc f).head?, ∀ c ∈ t, Byte.isPlain c = true := by
  have hmap : ∀ operands : List Operand, ∀ t ∈ (operands.map (operandText e pc f)).head?,
      ∀ c ∈ t, Byte.isPlain c = true := by
    intro operands t ht
    obtain ⟨o, -, rfl⟩ := List.mem_map.1 (List.mem_of_mem_head? ht)
    exact operandText_isPlain e pc f o
  unfold terms
  split
  · split
    · intro t ht
      obtain rfl := Option.some.inj ht
      exact operandText_isPlain e pc f _
    · exact hmap _
  · exact hmap _

/-- Fields that the text of a row shows in full: each is filled by an operand, told by the suffix or
zero, and each operand can be read without the other lines of a scope. -/
structure Shown (e : Instruction) (f : Fields) : Prop where
  mem : e ∈ table
  suffix : e.mnemonic ∉ fixedSuffixes
  label : .label ∈ e.operands → e.family = .jump
  integer : ∀ o ∈ e.operands, ∀ s, o.register? = some (.integer, s) → (f.slot s).toNat < 16
  filled : f.FilledBy e.operands
  dest : e.family.hasDest = false → f.dest = 0
  interlock : e.family ≠ .cop2 → f.interlock = 0

/-- The command of the line of an instruction. -/
theorem ofLine_instructionText (he : e ∈ table) (pc : Word) (f : Fields) :
    Command.ofLine (instructionText e pc f) =
      { text := instructionText e pc f
        name := Bytes.upper (mnemonicText e f)
        args := Token.commaTerms (terms e pc f) } := by
  have htokens : Token.ofLine (instructionText e pc f) =
      (Bytes.upper (mnemonicText e f), Token.commaTerms (terms e pc f)) := by
    rw [instructionText_eq]
    exact Token.ofLine_printed (mnemonicText_ne_nil he) (mnemonicText_isPlain he)
      (terms_head_isPlain e pc f) (terms_isTerm e pc f)
  rw [Command.ofLine, htokens]

end Disassembly

namespace Assembly

open Instruction Disassembly

variable {e : Instruction} {f : Fields} {pc : Word} {c : Command}

theorem isLabel_eq_false {name : Bytes} (h : Byte.colon ∉ name) : isLabel name = false := by
  cases hafter : Bytes.after? [Byte.colon] name.reverse with
  | none => simp [isLabel, Bytes.endsWith, Bytes.before?, hafter]
  | some rest =>
    have hmem : Byte.colon ∈ name.reverse := by
      rw [Bytes.eq_append_of_after? hafter]
      exact List.mem_append_left _ List.mem_cons_self
    exact absurd (List.mem_reverse.1 hmem) h

theorem colon_not_mem (he : e ∈ table) : Byte.colon ∉ Bytes.upper (mnemonicText e f) := by
  have hcolon : ∀ c, Byte.isPlain c = true → Byte.toUpper c ≠ Byte.colon := by
    intro c hc
    have hbounds := Byte.isPlain_bounds hc
    grind [Byte.isPlain, Byte.toUpper, Byte.isUpper, Byte.isLower, Byte.isDigit]
  rw [upper_of_isPlain (mnemonicText_isPlain he)]
  intro hmem
  obtain ⟨c, hc, heq⟩ := List.mem_map.1 hmem
  exact hcolon c (mnemonicText_isPlain he c hc) heq

theorem jumpTarget_bits (pc imm : Word) :
    (BitVec.ofNat 32 ((branchTarget .jump pc imm).toNat % 16 ^ 7) >>> 2).setWidth 26 =
      imm.setWidth 26 := by
  have hmod : BitVec.ofNat 32 ((branchTarget .jump pc imm).toNat % 16 ^ 7) =
      ((branchTarget .jump pc imm).setWidth 28).setWidth 32 := by
    apply BitVec.eq_of_toNat_eq
    simp
  have hregion : (branchTarget .jump pc imm).setWidth 28 = imm.setWidth 28 <<< 2 := by
    rw [branchTarget, if_pos rfl]
    simp
  rw [hmod, hregion]
  ext i hi
  have hplace : 2 + i < 28 ∧ 2 + i < 32 ∧ i < 28 ∧ ¬ 2 + i < 2 := by omega
  obtain ⟨hplace28, hplace32, hi28, hshifted⟩ := hplace
  simp only [BitVec.getElem_setWidth, BitVec.getLsbD_ushiftRight, BitVec.getLsbD_setWidth,
    BitVec.getLsbD_shiftLeft, hplace28, hplace32, hi28, hshifted, Nat.add_sub_cancel_left,
    decide_true,
    decide_false, Bool.not_false, Bool.true_and]

theorem length_commaTerms (terms : List Bytes) :
    (Token.commaTerms terms).length = terms.length := by
  cases terms with
  | nil => rfl
  | cons first rest => simp [Token.commaTerms]

/-- An instruction with its printed operands is encoded to the word of its fields. -/
theorem encode_terms (h : Shown e f) (hjump : e.family ≠ .jump)
    (hname : c.name = Bytes.upper (mnemonicText e f))
    (hargs : c.args = Token.commaTerms (e.operands.map (termText e pc f))) :
    encode [] 0 c = .ok (e.pack f) := by
  have hops : readOperands e.family [] 0 (e.operands.zip c.args) =
      .ok (({} : Fields).fillAll (seen e f) e.operands) := by
    rw [hargs]
    refine readOperands_eq (termText_isPlain e pc f) fun o ho start => ?_
    exact readOperand_termText (fun heq => hjump (h.label (heq ▸ ho))) (h.integer o ho) start
  have hsuffix := readSuffix_upper_mnemonicText h.mem h.suffix h.dest h.interlock
    (Fields.fillAll_dest {} (seen e f) e.operands)
    (Fields.fillAll_interlock {} (seen e f) e.operands)
  have hlen : c.args.length = e.operands.length := by
    rw [hargs, length_commaTerms, List.length_map]
  rw [← hname] at hsuffix
  rw [encode_eq (hname ▸ find?_upper_mnemonicText h.mem h.suffix) hlen hops hsuffix]
  -- the fields read differ from `f` at most where the layout has no place
  have hsame := h.filled.sameNumbers_fillAll Fields.FilledBy.empty (seen_sameNumbers (f := f) hjump)
  exact congrArg Except.ok (pack_congr hsame.withSuffix (fun _ => rfl) (fun _ => rfl))

/-- The line of an instruction other than a jump takes part in no form but that of loads and
stores. -/
theorem passesForms (he : e ∈ table) (hfixed : e.mnemonic ∉ fixedSuffixes)
    (hjump : e.family ≠ .jump) (hname : c.name = Bytes.upper (mnemonicText e f))
    (hargs : e.mnemonic ∉ loadStores → c.args.length = e.operands.length) : PassesForms c := by
  rcases upper_mnemonicText_cases (f := f) he with hplain | ⟨hs, letters, hsuffixed⟩
  · rw [← hname] at hplain
    constructor
    · intro hshort
      rw [hplain] at hshort
      have hload : e.mnemonic ∉ loadStores := by
        intro hload
        obtain ⟨htwo, hshift⟩ := loadStore_not_shortForm hload
        exact hshort.elim htwo hshift
      rw [hargs hload, length_of_shortForm he hshort]
    · rw [hplain]
      constructor
      · exact fun hj => hjump ((jump_iff he).1 (.inl hj))
      · exact fun hj => hjump ((jump_iff he).1 (.inr hj))
    · intro hjalr
      have hlen := length_of_jalr he (hplain.symm.trans hjalr)
      rw [← hlen]
      refine hargs fun hload => ?_
      rcases (operands_of_loadStore he hload).2 with hops | hops | hops
      all_goals
        rw [hops] at hlen
        cases hlen
    · rw [hplain]
      exact mnemonic_ne_pseudo he
  · have hform : ∀ name ∈ formNames, c.name ≠ name := by
      intro name hmem
      rw [hname, hsuffixed]
      exact suffixed_ne he hs hfixed letters (List.mem_append_right _ hmem)
    have hpseudo : ∀ name ∈ pseudoNames, c.name ≠ name := fun name hmem =>
      hform name (List.mem_append_right _ hmem)
    constructor
    · rintro (hmem | hmem)
      · exact absurd rfl (hform c.name (by simp [formNames, hmem]))
      · exact absurd rfl (hform c.name (by simp [formNames, hmem]))
    · exact ⟨hpseudo _ (by simp [pseudoNames]), hpseudo _ (by simp [pseudoNames])⟩
    · exact fun hjalr => absurd hjalr (hpseudo _ (by simp [pseudoNames]))
    · intro name hmem
      refine hpseudo name ?_
      simp only [List.map_cons, List.map_nil, List.mem_cons, List.not_mem_nil, or_false] at hmem
      rcases hmem with rfl | rfl | rfl | rfl | rfl
      all_goals simp [pseudoNames]

/-- A jump to the seven lower digits of its target is encoded to the word of its fields. -/
theorem encode_jump (h : Shown e f) (hjump : e.family = .jump) (hname : c.name = e.mnemonic)
    (hargs : c.args = [Hex.fixed 7 (branchTarget .jump pc f.imm).toNat]) :
    encode [] 0 c = .ok (e.pack f) := by
  have hops := operands_of_jump h.mem hjump
  have hupper : Bytes.upper (mnemonicText e f) = e.mnemonic :=
    upper_mnemonicText_plain h.mem (by rw [hjump]; rfl)
  have hread : readOperands e.family [] 0 (e.operands.zip c.args) =
      .ok { imm := BitVec.ofNat 32 ((branchTarget .jump pc f.imm).toNat % 16 ^ 7) >>> 2 } := by
    rw [hargs, hops, List.zip_cons_cons, readOperands, bare_of_isPlain (fixed_isPlain _ _),
      readOperand, labelOperand, if_pos hjump, Hex.hexWord_fixed _ (by decide) (by decide)]
    rfl
  have hsuffix := readSuffix_upper_mnemonicText h.mem h.suffix h.dest h.interlock
    (g := { imm := BitVec.ofNat 32 ((branchTarget .jump pc f.imm).toNat % 16 ^ 7) >>> 2 }) rfl rfl
  rw [hupper, ← hname] at hsuffix
  rw [encode_eq (hname ▸ find?_mnemonic h.mem) (by rw [hargs, hops]; rfl) hread hsuffix]
  refine congrArg Except.ok (pack_congr ?_ (fun _ => rfl) (fun _ => rfl))
  -- the upper four bits of the target are lost, which the word has no place for
  rw [hjump]
  exact {
    slot := fun s hs => by cases s <;> cases hs
    shift := fun hs => by cases hs
    immediate := fun hs => by cases hs
    target := fun _ => jumpTarget_bits pc f.imm }

/-- The text of a jump is assembled to the word of its fields. -/
theorem assemble_jump (h : Shown e f) (hjump : e.family = .jump) (base : Word) :
    (assemble {} base [Command.ofLine (instructionText e pc f)]).words = .ok [e.pack f] := by
  have hname : Bytes.upper (mnemonicText e f) = e.mnemonic :=
    upper_mnemonicText_plain h.mem (by rw [hjump]; rfl)
  have hterms : terms e pc f = [ascii "0x" ++ Hex.word (branchTarget .jump pc f.imm)] := by
    rw [terms_of_not_loadStore (jump_not_loadStore h.mem hjump),
      operands_of_jump h.mem hjump, ← hjump]
    rfl
  rw [ofLine_instructionText h.mem, hname, hterms]
  refine assemble_line base ?_
    (instructionsOf_jump (jump_not_shortForm h.mem hjump) ((jump_iff h.mem).2 hjump) rfl) ?_
  · exact isLabel_eq_false (hname ▸ colon_not_mem h.mem)
  · exact encode_jump h hjump rfl rfl

theorem isHexMarked_signedHex (v : Int) : Literal.isHexMarked (signedHex v) = true := by
  cases v <;> rfl

/-- The text of a load or store is assembled to the word of its fields. -/
theorem assemble_loadStore (h : Shown e f) (hload : e.mnemonic ∈ loadStores) (base : Word) :
    (assemble {} base [Command.ofLine (instructionText e pc f)]).words = .ok [e.pack f] := by
  obtain ⟨hfam, hshape⟩ := operands_of_loadStore h.mem hload
  have hjump : e.family ≠ .jump := by rw [hfam]; decide
  have hname : Bytes.upper (mnemonicText e f) = e.mnemonic :=
    upper_mnemonicText_plain h.mem (by rw [hfam]; rfl)
  obtain ⟨target, hops, htarget⟩ : ∃ target, e.operands = [target, .imm, .rs] ∧ target ≠ .imm := by
    rcases hshape with hops | hops | hops
    · exact ⟨_, hops, by decide⟩
    · exact ⟨_, hops, by decide⟩
    · exact ⟨_, hops, by decide⟩
  have hjalr : e.mnemonic ≠ ascii "JALR" := by
    intro hjalr
    have hlen := length_of_jalr h.mem hjalr
    rw [hops] at hlen
    cases hlen
  have hline := ofLine_instructionText h.mem pc f
  rw [terms_of_loadStore hops hload] at hline
  generalize Command.ofLine (instructionText e pc f) = c at hline
  have hcname : c.name = Bytes.upper (mnemonicText e f) := by rw [hline]
  have hforms : PassesForms c :=
    passesForms h.mem h.suffix hjump hcname fun hnot => absurd hload hnot
  have haccess : instructionsOf {} c = .ok [c.withParts c.name
      [operandText e pc f target, Byte.comma :: signedHex f.imm.toInt,
        Byte.comma :: operandText e pc f .rs]] := by
    rw [hforms.instructionsOf_eq, hcname, hname, if_pos ⟨hload, hjalr⟩, ← hname, ← hcname]
    exact access_based (by rw [hline]; rfl) (operandText_isPlain e pc f target)
      (signedHex_isPlain _) (operandText_isPlain e pc f .rs) (isHexMarked_signedHex _)
  refine assemble_line base (isLabel_eq_false (hcname ▸ colon_not_mem h.mem)) haccess ?_
  have htarget' : termText e pc f target = operandText e pc f target :=
    if_neg fun hboth => htarget hboth.1
  have hoffset : termText e pc f .imm = signedHex f.imm.toInt := if_pos ⟨rfl, hload⟩
  have hbase : termText e pc f .rs = operandText e pc f .rs := if_neg (by simp)
  have hterms : e.operands.map (termText e pc f) =
      [operandText e pc f target, signedHex f.imm.toInt, operandText e pc f .rs] := by
    rw [hops, List.map_cons, List.map_cons, List.map_cons, htarget', hoffset, hbase, List.map_nil]
  exact encode_terms h hjump hcname (congrArg Token.commaTerms hterms).symm

/-- The text of an instruction is assembled to the word of its fields. -/
theorem assemble_instructionText (h : Shown e f) (base : Word) :
    (assemble {} base [Command.ofLine (instructionText e pc f)]).words = .ok [e.pack f] := by
  by_cases hjump : e.family = .jump
  · exact assemble_jump h hjump base
  by_cases hload : e.mnemonic ∈ loadStores
  · exact assemble_loadStore h hload base
  have hterms : terms e pc f = e.operands.map (termText e pc f) := by
    rw [terms_of_not_loadStore hload]
    refine List.map_congr_left fun o _ => ?_
    rw [termText, if_neg fun hboth => hload hboth.2]
  have hline := ofLine_instructionText h.mem pc f
  rw [hterms] at hline
  generalize Command.ofLine (instructionText e pc f) = c at hline
  have hcname : c.name = Bytes.upper (mnemonicText e f) := by rw [hline]
  have hcargs : c.args = Token.commaTerms (e.operands.map (termText e pc f)) := by rw [hline]
  have hforms : PassesForms c := by
    refine passesForms h.mem h.suffix hjump hcname fun _ => ?_
    rw [hcargs, length_commaTerms, List.length_map]
  have hnot : c.name ∉ loadStores := by
    rw [hcname]
    rcases upper_mnemonicText_cases (f := f) h.mem with hplain | ⟨hs, letters, hsuffixed⟩
    · rwa [hplain]
    · rw [hsuffixed]
      intro hmem
      exact suffixed_ne h.mem hs h.suffix letters (by simp [formNames, hmem]) rfl
  have hself : instructionsOf {} c = .ok [c] := by
    rw [hforms.instructionsOf_eq, if_neg fun hboth => hnot hboth.1]
  exact assemble_line base (isLabel_eq_false (hcname ▸ colon_not_mem h.mem)) hself
    (encode_terms h hjump hcname hcargs)

/-- Every word of a scope is read as an instruction. -/
theorem decode_isSome_of_mem_listing {t : DefinitionTable} {base : Word} {cmds : List Command}
    {line : ListingLine} (h : line ∈ (assemble t base cmds).listing) :
    (decode line.word pc).instruction.isSome = true := by
  rw [assemble] at h
  cases hx : Expanded.ofCommands t cmds with
  | error failure => simp [hx] at h
  | ok x =>
    rw [hx] at h
    obtain ⟨index, c, hword⟩ := exists_encode_of_mem_listing h
    obtain ⟨e, hmem, haccepts⟩ := encode_accepts hword
    obtain ⟨row, hrow⟩ := Option.isSome_iff_exists.1 (ofWord?_isSome hmem haccepts)
    rw [decode, hrow]
    rfl

end Assembly

namespace Disassembly

open Instruction

/-- The row of no operation. -/
def noOperation : Instruction := Instruction.entry "NOP" .special 0b000000 []

theorem noOperation_shown : Shown noOperation {} where
  mem := List.mem_of_getElem? (i := 80) rfl
  suffix := by decide
  label := by decide
  integer := by simp [noOperation, Instruction.entry]
  filled := Fields.FilledBy.empty
  dest _ := rfl
  interlock _ := rfl

/-- The fields of a decoded word that its text shows. -/
theorem shown_of_decode {w pc : Word} {e : Instruction} (h : (decode w pc).instruction = some e)
    (hlabel : .label ∉ e.operands ∨ e.family = .jump) (hfixed : e.mnemonic ∉ fixedSuffixes)
    (hint : ∀ o ∈ e.operands, ∀ s, o.register? = some (.integer, s) →
      ((decode w pc).fields.slot s).toNat < 16) :
    decode w pc = ⟨pc, w, some e, e.unpack w⟩ ∧ Shown e (e.unpack w) ∧ e.accepts w = true := by
  have hrow : ofWord? w = some e := by
    rw [decode] at h
    cases hrow : ofWord? w with
    | none => simp [hrow] at h
    | some row => rw [hrow] at h; exact h
  have hdecode : decode w pc = ⟨pc, w, some e, e.unpack w⟩ := by rw [decode, hrow]
  obtain ⟨hmem, haccepts⟩ := accepts_of_ofWord? hrow
  rw [hdecode] at hint
  refine ⟨hdecode, ?_, haccepts⟩
  exact {
    mem := hmem
    suffix := hfixed
    label := fun hin => hlabel.resolve_left fun hnot => hnot hin
    integer := hint
    filled := unpack_filledBy e w
    dest := fun hdest => unpack_dest hdest w
    interlock := fun hfam => unpack_interlock hfam w }

/-- Every word of an assembled scope is read as an instruction. A decoded word is printed as a line
that is assembled, by itself and without definitions, to that word, if it is no branch to a label,
its mnemonic has no suffix of its own and its integer registers exist. -/
theorem text_reassembles :
    (∀ (t : DefinitionTable) (base : Word) (cmds : List Command),
      ∀ line ∈ (Assembly.assemble t base cmds).listing, ∀ pc,
        (decode line.word pc).instruction.isSome = true) ∧
    ∀ (w pc base : Word) (e : Instruction), (decode w pc).instruction = some e →
      (.label ∉ e.operands ∨ e.family = .jump) →
      e.mnemonic ∉ ["VCLIPW.XYZ", "VOPMULA.XYZ", "VOPMSUB.XYZ"].map ascii →
      (∀ o ∈ e.operands, ∀ s, o.register? = some (.integer, s) →
        ((decode w pc).fields.slot s).toNat < 16) →
      (Assembly.assemble {} base [Command.ofLine (text (decode w pc))]).words = .ok [w] := by
  constructor
  · intro t base cmds line hline pc
    exact Assembly.decode_isSome_of_mem_listing hline
  · intro w pc base e he hlabel hfixed hint
    obtain ⟨hdecode, hshown, haccepts⟩ := shown_of_decode he hlabel hfixed hint
    rw [hdecode]
    by_cases hzero : w = 0
    · -- the word of no operation has a text of its own
      subst hzero
      have hnop : text ⟨pc, 0, some e, e.unpack 0⟩ = instructionText noOperation pc {} := rfl
      rw [hnop, Assembly.assemble_instructionText noOperation_shown base]
      rfl
    · have htext : text ⟨pc, w, some e, e.unpack w⟩ = instructionText e pc (e.unpack w) :=
        if_neg hzero
      rw [htext, Assembly.assemble_instructionText hshown base, pack_unpack haccepts]

theorem text_reassembles_viadd :
    (⟨0#32, 0x4A0F08F0#32, ascii "viadd $vi3,$vi1,$vi15"⟩ : Assembly.ListingLine) ∈
        (Assembly.assemble {} 0 [Command.ofLine (ascii "viadd $vi3,$vi1,$vi15")]).listing ∧
      (decode 0x4A0F08F0#32 0).instruction.isSome = true ∧
      (decode 0x4A0F08F0#32 0).instruction =
        some (entry "VIADD" .cop2Special1 0b110000 [.vid, .vis, .vit]) ∧
      text (decode 0x4A0F08F0#32 0) = ascii "viadd $vi3,$vi1,$vi15" ∧
      (Assembly.assemble {} 0 [Command.ofLine (text (decode 0x4A0F08F0#32 0))]).words =
        .ok [0x4A0F08F0#32] := by
  have hread : (decode 0x4A0F08F0#32 0).instruction =
      some (entry "VIADD" .cop2Special1 0b110000 [.vid, .vis, .vit]) := by decide +kernel
  have hline : (⟨0#32, 0x4A0F08F0#32, ascii "viadd $vi3,$vi1,$vi15"⟩ : Assembly.ListingLine) ∈
      (Assembly.assemble {} 0 [Command.ofLine (ascii "viadd $vi3,$vi1,$vi15")]).listing := by
    decide +kernel
  have hsmall : ∀ s, ((decode 0x4A0F08F0#32 0).fields.slot s).toNat < 16 := by
    intro s
    cases s <;> decide +kernel
  refine ⟨hline, text_reassembles.1 _ _ _ _ hline 0, hread, by decide +kernel, ?_⟩
  exact text_reassembles.2 _ 0 0 _ hread (.inl (by decide)) (by decide +kernel) fun _ _ s _ =>
    hsmall s

end Disassembly

end CheatScript
