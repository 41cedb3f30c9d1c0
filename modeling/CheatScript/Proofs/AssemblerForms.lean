import CheatScript.Assembly
import CheatScript.Proofs.PrintedOperands

/-!
# Proofs: lines of the assembler

What a line with all its operands stands for: itself, apart from jumps, whose target is rewritten,
and loads and stores, whose offset and base become two operands. A scope of one such line is
assembled to one word. Every word of a scope comes from a row of the table with fields that its
operands fill.
-/

namespace CheatScript.Assembly

open Instruction

variable {t : DefinitionTable} {c : Command}

/-! ## Forms -/

/-- A name that the forms before the loads and stores pass over. -/
structure PassesForms (c : Command) : Prop where
  short : c.name ∈ twoOperandForms ∨ c.name ∈ shiftForms → c.args.length = 3
  jump : c.name ≠ ascii "J" ∧ c.name ≠ ascii "JAL"
  jalr : c.name = ascii "JALR" → c.args.length = 2
  pseudo : ∀ name ∈ ["LI", "BLT", "BGE", "BLE", "BGT"].map ascii, c.name ≠ name

theorem not_shortForm {names : List Bytes} (h : c.name ∈ names → c.args.length = 3) :
    ¬ (decide (c.args.length ≠ 3) && decide (c.name ∈ names)) = true := by
  simp only [Bool.and_eq_true, decide_eq_true_iff]
  rintro ⟨hlen, hmem⟩
  exact hlen (h hmem)

theorem PassesForms.not_comparing (h : PassesForms c) :
    comparingBranches.find? (·.name == c.name) = none := by
  have hnames : ∀ b ∈ comparingBranches, b.name ∈ ["LI", "BLT", "BGE", "BLE", "BGT"].map ascii := by
    simp [comparingBranches]
  refine List.find?_eq_none.2 fun b hb hname => ?_
  exact h.pseudo b.name (hnames b hb) (beq_iff_eq.1 hname).symm

/-- Such a line is a load or store or stands for itself. -/
theorem PassesForms.instructionsOf_eq (h : PassesForms c) :
    instructionsOf t c = if c.name ∈ loadStores ∧ c.name ≠ ascii "JALR" then
    access t c else .ok [c] := by
  have hj : ¬ (!c.args.isEmpty && (decide (c.name = ascii "J") || decide (c.name = ascii "JAL"))) =
      true := by
    simp [h.jump.1, h.jump.2]
  have hli : c.name ≠ ascii "LI" := h.pseudo (ascii "LI") (by simp)
  rw [instructionsOf, if_neg (not_shortForm fun hmem => h.short (.inl hmem)),
    if_neg (not_shortForm fun hmem => h.short (.inr hmem)), if_neg hj, h.not_comparing]
  by_cases hname : c.name = ascii "JALR"
  · rw [if_pos hname, if_neg fun hboth => hboth.2 hname]
    have hlen := h.jalr hname
    match hargs : c.args with
    | [] | [_] => simp [hargs] at hlen
    | _ :: _ :: _ => rfl
  · by_cases hload : c.name ∈ loadStores
    · simp only [if_neg hname, if_pos hload, if_pos (And.intro hload hname)]
    · simp only [if_neg hname, if_neg hload, if_neg hli, if_neg fun hboth => hload (And.left hboth)]

/-- A jump to an address in eight hexadecimal digits. -/
theorem instructionsOf_jump {target : Word}
    (hshort : c.name ∉ twoOperandForms ∧ c.name ∉ shiftForms)
    (hname : c.name = ascii "J" ∨ c.name = ascii "JAL")
    (hargs : c.args = [ascii "0x" ++ Hex.word target]) :
    instructionsOf t c = .ok [c.withParts c.name [Hex.fixed 7 target.toNat]] := by
  have hj : (!c.args.isEmpty && (decide (c.name = ascii "J") || decide (c.name = ascii "JAL"))) =
      true := by
    rcases hname with hname | hname
    · simp [hargs, hname]
    · simp [hargs, hname]
  have hvalue : Argument.addressValue (ascii "0x" ++ Hex.word target) = .ok target :=
    Argument.literal_eq_ok (Literal.isAddress_hex (Hex.isHexDigits_fixed _ (by decide) (by decide)))
      (Literal.address_hex (Hex.hexWord_word target))
  have haddress : Argument.address c.args = .ok (target, []) := by
    rw [hargs, Argument.address, Argument.sumReader, hvalue]
    show Except.ok (target + 0#32, []) = _
    rw [BitVec.add_zero]
  rw [instructionsOf, if_neg (not_shortForm fun hmem => absurd hmem hshort.1),
    if_neg (not_shortForm fun hmem => absurd hmem hshort.2), if_pos hj, jump, haddress]

/-! ## Loads and stores -/

theorem tidyMark_of_isPlain {s : Bytes} (h : ∀ c ∈ s, Byte.isPlain c = true) : tidyMark s = s := by
  cases s with
  | nil => rfl
  | cons b s =>
    have hb := Byte.isTerm_of_isPlain (h b List.mem_cons_self)
    simp only [Byte.isTerm, Bool.and_eq_true, bne_iff_ne] at hb
    obtain ⟨⟨⟨hcomma, -⟩, hplus⟩, -⟩ := hb
    simp [tidyMark, splitMark, hcomma, hplus]

theorem tidyMark_comma {s : Bytes} (h : ∀ c ∈ s, Byte.isPlain c = true) :
    tidyMark (Byte.comma :: s) = Byte.comma :: s := by
  have hhead : ∀ a ∈ s.head?, Byte.isSolid a = true :=
    fun a ha => Byte.isSolid_of_isPlain (h a (List.mem_of_mem_head? ha))
  have hmark : tidyMark (Byte.comma :: s) = Byte.comma :: Space.trimStart s := rfl
  rw [hmark, Space.trimStart_of_head hhead]

/-- Without definitions only the blanks after the marks go. -/
theorem substitute_empty (c : Command) :
    ({} : DefinitionTable).substitute c = .ok { c with args := c.args.map tidyMark } := by
  have htoken : ({} : DefinitionTable).substituteToken c.position = fun token =>
      some [tidyMark token] := by
    funext token
    rfl
  have hall : ∀ tokens : List Bytes, (tokens.mapM fun token => some [tidyMark token]) =
      some (tokens.map fun token => [tidyMark token]) := by
    intro tokens
    induction tokens with
    | nil => rfl
    | cons token tokens ih => rw [List.mapM_cons, ih]; rfl
  have hflat : ∀ tokens : List Bytes, (tokens.map fun token => [tidyMark token]).flatten =
      tokens.map tidyMark := by
    intro tokens
    induction tokens with
    | nil => rfl
    | cons token tokens ih => rw [List.map_cons, List.flatten_cons, ih]; rfl
  rw [DefinitionTable.substitute, htoken, hall]
  simp only [hflat]

/-- An offset with its hexadecimal mark stays as it is. -/
theorem hexOffset_comma {offset : Bytes} (hplain : ∀ c ∈ offset, Byte.isPlain c = true)
    (hmark : Literal.isHexMarked offset = true) :
    hexOffset (Byte.comma :: offset) = Byte.comma :: offset := by
  have hlast : ∀ a ∈ offset.getLast?, Byte.isSolid a = true :=
    fun a ha => Byte.isSolid_of_isPlain (hplain a (List.mem_of_getLast? ha))
  rw [hexOffset, List.tail_cons, Space.trimEnd_of_last hlast]
  exact if_pos hmark

theorem trimEnd_comma {s : Bytes} (hne : s ≠ []) (h : ∀ c ∈ s, Byte.isPlain c = true) :
    Space.trimEnd (Byte.comma :: s) = Byte.comma :: s := by
  refine Space.trimEnd_of_last fun a ha => ?_
  rw [List.getLast?_cons_of_ne_nil hne] at ha
  exact Byte.isSolid_of_isPlain (h a (List.mem_of_getLast? ha))

/-- A load or store of the form `target,offset(base)` has three operands. -/
theorem access_based {target offset base : Bytes}
    (hargs : c.args = [target, Byte.comma :: (offset ++ ascii "(" ++ base ++ ascii ")")])
    (htarget : ∀ c ∈ target, Byte.isPlain c = true) (hoffset : ∀ c ∈ offset, Byte.isPlain c = true)
    (hbase : ∀ c ∈ base, Byte.isPlain c = true) (hmark : Literal.isHexMarked offset = true) :
    access {} c = .ok [c.withParts c.name [target, Byte.comma :: offset, Byte.comma :: base]] := by
  have hne : offset ≠ [] := by
    rintro rfl
    cases hmark
  have hplace : Byte.comma :: (offset ++ ascii "(" ++ base ++ ascii ")") =
      (Byte.comma :: offset) ++ Byte.opening :: (base ++ [Byte.closing]) := by
    have hopen : ascii "(" = [Byte.opening] := rfl
    have hclose : ascii ")" = [Byte.closing] := rfl
    simp [hopen, hclose]
  have hopening : Byte.opening ∉ Byte.comma :: offset := by
    intro hmem
    rcases List.mem_cons.1 hmem with hcomma | hmem
    · cases hcomma
    · exact Byte.ne_opening_of_isPlain (hoffset _ hmem) rfl
  have hcut : Bytes.cut? Byte.opening (Byte.comma :: (offset ++ ascii "(" ++ base ++ ascii ")")) =
      some (Byte.comma :: offset, base ++ [Byte.closing]) := by
    rw [hplace, Bytes.cut?_append hopening]
  have hclosing : (Byte.comma :: (offset ++ ascii "(" ++ base ++ ascii ")")).contains Byte.closing =
      true := by
    rw [hplace]
    simp
  have hrest : (base ++ [Byte.closing]).isEmpty = false := by simp
  have hbare : Byte.comma :: offset ≠ [Byte.comma] := by simpa using hne
  have hbased : basedAccess {} c target (Byte.comma :: offset) base =
      .ok [c.withParts c.name [target, Byte.comma :: offset, Byte.comma :: base]] := by
    rw [basedAccess, trimEnd_comma hne hoffset]
    simp only [if_neg hbare, substitute_empty]
    simp only [Command.withParts, commaBefore, List.map_cons, List.map_nil,
      tidyMark_of_isPlain htarget, tidyMark_comma hoffset, tidyMark_comma hbase]
    simp only [bind, Except.bind, List.isEmpty_cons, Bool.false_eq_true, if_false,
      hexOffset_comma hoffset hmark]
  rw [access, hargs]
  simp only [hcut, hclosing, hrest, if_true, Bool.false_eq_true, if_false,
    List.dropLast_concat, hbased]

/-! ## Scopes of one line -/

theorem addLine_eq {x : Expanded} (hlabel : isLabel c.name = false) :
    Expanded.addLine t c x c.name c.args = x.emit t c := by
  cases hargs : c.args with
  | nil =>
    have hself : c.withParts c.name [] = c := by rw [← hargs]; rfl
    rw [Expanded.addLine, hlabel, if_neg Bool.false_ne_true, hself]
  | cons a args =>
    have hself : c.withParts c.name (a :: args) = c := by rw [← hargs]; rfl
    rw [Expanded.addLine, hlabel, if_neg Bool.false_ne_true, hself]

/-- A line that stands for one instruction is assembled to its word. -/
theorem assemble_line {c' : Command} {w : Word} (base : Word) (hlabel : isLabel c.name = false)
    (hform : instructionsOf t c = .ok [c']) (hword : encode [] 0 c' = .ok w) :
    (assemble t base [c]).words = .ok [w] := by
  have hemit : Expanded.emit t {} c = .ok { code := [c'] } := by
    rw [Expanded.emit, hform]
    rfl
  have hexpand : Expanded.ofCommands t [c] = .ok { code := [c'] } := by
    rw [Expanded.ofCommands, List.foldlM_cons, addLine_eq hlabel, hemit]
    rfl
  have hencode :
      encodeFrom [] base 0 [c'] = ⟨[⟨base + BitVec.ofNat 32 (4 * 0), w, sourceText c'⟩], none⟩ := by
    rw [encodeFrom, hword]
    rfl
  rw [assemble, hexpand]
  simp only [hencode]
  rfl

/-- An instruction whose operands are read into fields of its row. -/
theorem encode_eq {e : Instruction} {f g : Fields} {labels : Labels} {index : Nat}
    (hfind : find? c.name = some e) (hlen : c.args.length = e.operands.length)
    (hops : readOperands e.family labels index (e.operands.zip c.args) = .ok f)
    (hsuffix : readSuffix e.family c.name f = .ok g) : encode labels index c = .ok (e.pack g) := by
  have hread : readInstruction labels index c = .ok (e, g) := by
    rw [readInstruction, hfind]
    simp only [hlen, ne_eq, not_true_eq_false, if_false, hops, bind, Except.bind, hsuffix]
    rfl
  rw [encode, hread]

/-! ## Words of any scope -/

variable {e : Instruction} {f g : Fields} {labels : Labels} {index : Nat} {w : Word}

theorem mem_table_of_find? {name : Bytes} (h : find? name = some e) : e ∈ table := by
  rw [find?] at h
  cases hname : spelled? name with
  | some row =>
    rw [hname] at h
    obtain rfl := Option.some.inj h
    exact List.mem_of_find?_eq_some hname
  | none =>
    rw [hname] at h
    cases hcut : cutSuffix? name with
    | none => simp [hcut] at h
    | some parts =>
      simp only [hcut] at h
      exact List.mem_of_find?_eq_some (Option.eq_some_of_filter_eq_some h)

/-- Reading an operand changes no field but the one it fills. -/
theorem readOperand_eq_fill {family : Family} {o : Operand} {s : Bytes}
    (h : readOperand family labels index f o s = .ok g) : ∃ source : Fields,
    g = f.fill source o := by
  cases hreg : o.register? with
  | some place =>
    obtain ⟨file, slot⟩ := place
    rw [readOperand_register hreg] at h
    cases hfind : file.find? s with
    | none => simp [hfind] at h
    | some r =>
      rw [hfind] at h
      obtain rfl := Except.ok.inj h
      refine ⟨({} : Fields).setSlot slot r, ?_⟩
      rw [fill_register hreg]
      cases slot <;> rfl
  | none =>
    cases o with
    | shift =>
      obtain ⟨v, -, hv⟩ := Outcome.bind_eq_ok.1 h
      obtain rfl := Outcome.pure_eq_ok.1 hv
      exact ⟨{ sa := v }, rfl⟩
    | imm5 =>
      obtain ⟨v, -, hv⟩ := Outcome.bind_eq_ok.1 h
      obtain rfl := Outcome.pure_eq_ok.1 hv
      exact ⟨{ rd := v }, rfl⟩
    | imm =>
      obtain ⟨v, -, hv⟩ := Outcome.bind_eq_ok.1 h
      obtain rfl := Outcome.pure_eq_ok.1 hv
      exact ⟨{ imm := v }, rfl⟩
    | label =>
      obtain ⟨v, -, hv⟩ := Outcome.bind_eq_ok.1 h
      obtain rfl := Outcome.pure_eq_ok.1 hv
      exact ⟨{ imm := v }, rfl⟩
    | _ => cases hreg

theorem readOperands_filledBy {family : Family} {operands : List (Operand × Bytes)}
    (h : readOperands family labels index operands = .ok f) :
    f.FilledBy (operands.map Prod.fst) := by
  -- over the operands after the first: what those before have filled stays filled
  have hrest : ∀ (rest : List (Operand × Bytes)) (before : List Operand) (start : Fields),
      start.FilledBy before → rest.foldlM (readMarked family labels index) start = .ok f →
        f.FilledBy (before ++ rest.map Prod.fst) := by
    intro rest
    induction rest with
    | nil =>
      intro before start hstart hfold
      obtain rfl := Except.ok.inj hfold
      rwa [List.map_nil, List.append_nil]
    | cons pair rest ih =>
      intro before start hstart hfold
      obtain ⟨o, s⟩ := pair
      rw [List.foldlM_cons] at hfold
      obtain ⟨next, hnext, hfold⟩ := Outcome.bind_eq_ok.1 hfold
      rw [readMarked] at hnext
      split at hnext
      · obtain ⟨source, rfl⟩ := readOperand_eq_fill hnext
        have hlater := ih (before ++ [o]) _ (hstart.fill source o) hfold
        rwa [List.append_assoc] at hlater
      · cases hnext
  cases operands with
  | nil =>
    obtain rfl := Except.ok.inj h
    exact Fields.FilledBy.empty
  | cons pair rest =>
    obtain ⟨o, s⟩ := pair
    obtain ⟨first, hfirst, hfold⟩ := Outcome.bind_eq_ok.1 h
    obtain ⟨source, rfl⟩ := readOperand_eq_fill hfirst
    exact hrest rest [o] _ (Fields.FilledBy.empty.fill source o) hfold

theorem readSuffix_filledBy {family : Family} {name : Bytes} {operands : List Operand}
    (h : readSuffix family name f = .ok g) (hf : f.FilledBy operands) : g.FilledBy operands := by
  have hsame : (∀ s, g.slot s = f.slot s) ∧ g.sa = f.sa ∧ g.imm = f.imm := by
    rw [readSuffix] at h
    split at h
    · obtain rfl := Except.ok.inj h
      exact ⟨fun s => rfl, rfl, rfl⟩
    · split at h
      · split at h
        · obtain rfl := Except.ok.inj h
          exact ⟨fun s => by cases s <;> rfl, rfl, rfl⟩
        · cases h
      · split at h
        · obtain ⟨mask, -, h⟩ := Outcome.bind_eq_ok.1 h
          obtain rfl := Outcome.pure_eq_ok.1 h
          exact ⟨fun s => by cases s <;> rfl, rfl, rfl⟩
        · obtain rfl := Except.ok.inj h
          exact ⟨fun s => rfl, rfl, rfl⟩
  obtain ⟨hslot, hshift, himm⟩ := hsame
  exact ⟨fun s hs => by rw [hslot, hf.slot s hs], fun hs => by rw [hshift, hf.shift hs],
    fun hs => by rw [himm, hf.immediate hs]⟩

/-- An encoded word is packed from the fields that its operands and its suffix are read into. -/
theorem encode_eq_ok (h : encode labels index c = .ok w) :
    ∃ e f g, find? c.name = some e ∧ c.args.length = e.operands.length ∧
      readOperands e.family labels index (e.operands.zip c.args) = .ok f ∧
      readSuffix e.family c.name f = .ok g ∧ w = e.pack g := by
  rw [encode] at h
  cases hread : readInstruction labels index c with
  | error kind => simp [hread, Command.refuse] at h
  | ok parts =>
    obtain ⟨e, f⟩ := parts
    rw [hread] at h
    obtain rfl := Except.ok.inj h
    rw [readInstruction] at hread
    cases hfind : find? c.name with
    | none => simp [hfind] at hread
    | some row =>
      simp only [hfind] at hread
      split at hread
      · cases hread
      · rename_i hlen
        have hlen' : c.args.length = row.operands.length := by simpa using hlen
        obtain ⟨start, hops, hread⟩ := Outcome.bind_eq_ok.1 hread
        obtain ⟨full, hsuffix, hread⟩ := Outcome.bind_eq_ok.1 hread
        obtain ⟨rfl, rfl⟩ := Prod.mk.inj (Outcome.pure_eq_ok.1 hread)
        exact ⟨row, start, full, rfl, hlen', hops, hsuffix, rfl⟩

/-- The fields of an encoded instruction are those that its operands fill. -/
theorem filledBy_of_read {name : Bytes} {args : List Bytes} (hlen : args.length = e.operands.length)
    (hops : readOperands e.family labels index (e.operands.zip args) = .ok f)
    (hsuffix : readSuffix e.family name f = .ok g) : g.FilledBy e.operands := by
  have hfilled := readOperands_filledBy hops
  rw [List.map_fst_zip (by omega)] at hfilled
  exact readSuffix_filledBy hsuffix hfilled

/-- An encoded word is one that its row accepts. -/
theorem encode_accepts (h : encode labels index c = .ok w) : ∃ e ∈ table, e.accepts w = true := by
  obtain ⟨e, f, g, hfind, hlen, hops, hsuffix, rfl⟩ := encode_eq_ok h
  exact ⟨e, mem_table_of_find? hfind, accepts_pack (filledBy_of_read hlen hops hsuffix)⟩

theorem exists_encode_of_mem_listing {base : Word} {line : ListingLine} {cmds : List Command}
    (h : line ∈ (encodeFrom labels base index cmds).listing) :
    ∃ index c, encode labels index c = .ok line.word := by
  induction cmds generalizing index with
  | nil => cases h
  | cons c cmds ih =>
    rw [encodeFrom] at h
    cases hword : encode labels index c with
    | error f => simp [hword] at h
    | ok w =>
      simp only [hword] at h
      rcases List.mem_cons.1 h with rfl | h
      · exact ⟨index, c, hword⟩
      · exact ih h

end CheatScript.Assembly
