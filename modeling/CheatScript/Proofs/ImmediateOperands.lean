import CheatScript.Proofs.CallExpansion
import CheatScript.Proofs.LineCode

/-!
# Proofs: immediates

An immediate that a line gives is read as a number of 32 bits, and the word keeps its lower half.
Nothing refuses a number that does not fit: it comes back from the word, by sign or zero extension,
only if it is from `-0x8000` to `0xFFFF`.
-/

namespace CheatScript

/-! ## Offsets -/

namespace Literal

/-- `0x` in front of the digits makes no difference to an address. -/
theorem address_hexMark {s : Bytes} (hsign : Bytes.startsWith [Byte.minus] s = false)
    (hmark : Bytes.startsWith hexMark s = false) : address (ascii "0x" ++ s) = address s := by
  have hunsigned : unsigned s = s := by
    rw [unsigned, Bytes.dropLead, Option.not_isSome_iff_eq_none.1 (Bool.eq_false_iff.1 hsign)]
    rfl
  have hdigits : Bytes.dropLead hexMark s = s := by
    rw [Bytes.dropLead, Option.not_isSome_iff_eq_none.1 (Bool.eq_false_iff.1 hmark)]
    rfl
  have hleft : Bytes.dropLead hexMark (unsigned (ascii "0x" ++ s)) = s := rfl
  have hplus :
      Bytes.startsWith [Byte.minus] (ascii "0x" ++ s) = Bytes.startsWith [Byte.minus] s := by
    rw [hsign]
    rfl
  rw [address, address, hleft, hplus, hunsigned, hdigits]

theorem address_minusHexMark {s : Bytes} (hmark : Bytes.startsWith hexMark s = false) :
    address (ascii "-0x" ++ s) = address (Byte.minus :: s) := by
  have hdigits : Bytes.dropLead hexMark s = s := by
    rw [Bytes.dropLead, Option.not_isSome_iff_eq_none.1 (Bool.eq_false_iff.1 hmark)]
    rfl
  have hunsigned : unsigned (Byte.minus :: s) = s := rfl
  have hleft : Bytes.dropLead hexMark (unsigned (ascii "-0x" ++ s)) = s := rfl
  rw [address, address, hleft, hunsigned, hdigits]
  rfl

theorem isHexDigits_of_isInteger {s : Bytes} (h : isInteger (ascii "0x" ++ s) = true) :
    isHexDigits s = true := by
  have hdecimal : isDecimalDigits (unsigned (ascii "0x" ++ s)) = false := rfl
  rw [isInteger, hdecimal, Bool.or_false] at h
  exact h

end Literal

namespace Assembly

open Instruction

theorem bare_eq_trimEnd {text rest : Bytes} {a : UInt8} (h : Space.trimEnd text = a :: rest)
    (ha : Byte.isSolid a = true) (hcomma : a ≠ Byte.comma) : bare text = a :: rest := by
  obtain ⟨blanks, hsplit⟩ := Space.trimEnd_prefix text
  rw [h] at hsplit
  have hdrop : text.dropWhile (· == Byte.comma) = text := by
    rw [← hsplit, List.cons_append, List.dropWhile_cons_of_neg (by simpa using hcomma)]
  have hstart : Space.trimStart text = text := by
    refine Space.trimStart_of_head fun b hb => ?_
    rw [← hsplit] at hb
    obtain rfl := Option.some.inj hb
    exact ha
  rw [bare, hdrop, Space.trim, hstart, h]

theorem bare_eq_self {a x : UInt8} {digits : Bytes} (middle : Bytes) (ha : Byte.isSolid a = true)
    (hcomma : a ≠ Byte.comma) (hx : Byte.isSolid x = true) (h : Space.trails digits = false) :
    bare (a :: middle ++ x :: digits) = a :: middle ++ x :: digits :=
  bare_eq_trimEnd (Space.trimEnd_eq_self ((Space.trails_append hx (a :: middle) digits).trans h))
    ha hcomma

variable {mark : UInt8} {text : Bytes} {fault : Fault} {v : Word}

theorem bare_of_isHexMarked (h : Literal.isHexMarked (Space.trimEnd text) = true) :
    bare text = Space.trimEnd text := by
  rcases Bool.or_eq_true_iff.1 h with hplain | hminus
  · obtain ⟨digits, hdigits⟩ := Option.isSome_iff_exists.1 hplain
    have hoff := Bytes.eq_append_of_after? hdigits
    rw [hoff]
    exact bare_eq_trimEnd hoff rfl (by decide)
  · obtain ⟨digits, hdigits⟩ := Option.isSome_iff_exists.1 hminus
    have hoff := Bytes.eq_append_of_after? hdigits
    rw [hoff]
    exact bare_eq_trimEnd hoff rfl (by decide)

theorem bare_of_isHexDigits (h : Literal.isHexDigits (Space.trimEnd text) = true) :
    bare text = Space.trimEnd text := by
  simp only [Literal.isHexDigits, Bool.and_eq_true, List.all_eq_true] at h
  obtain ⟨⟨hlen, -⟩, hhex⟩ := h
  cases hoff : Space.trimEnd text with
  | nil =>
    rw [hoff] at hlen
    cases hlen
  | cons a rest =>
    have ha : Byte.isHex a = true := hhex a (by rw [hoff]; exact List.mem_cons_self)
    exact bare_eq_trimEnd hoff (by grind [Byte.isHex, Byte.isDigit, Byte.isSolid, Byte.isBlank])
      (by rintro rfl; cases ha)

/-- An offset is a hexadecimal number, with or without its mark. The byte in front of it is not
looked at. -/
theorem address_of_hexOffset (hmark : Argument.hasMark Byte.comma (hexOffset (mark :: text)) = true)
    (h : integerOperand fault (bare (hexOffset (mark :: text))) = .ok v) :
    Literal.address (bare text) = .ok v := by
  have htrails := Space.trails_trimEnd text
  by_cases hmarked : Literal.isHexMarked (Space.trimEnd text) = true
  · -- the token stays as it is, so its first byte is the comma
    have hkeep : hexOffset (mark :: text) = mark :: text := if_pos hmarked
    rw [hkeep] at h hmark
    obtain rfl : mark = Byte.comma := by simpa [Argument.hasMark] using hmark
    have hbare := bare_of_isHexMarked hmarked
    have hvalue : Literal.integer (bare text) = .ok v := (Argument.of_literal_eq_ok h).2
    rwa [hbare, Literal.integer, if_pos hmarked, ← hbare] at hvalue
  · -- the digits get their mark, and a comma takes the place of the first byte
    have hoffset : ¬ (Bytes.startsWith (ascii "0x") (Space.trimEnd text) ||
        Bytes.startsWith (ascii "-0x") (Space.trimEnd text)) = true := hmarked
    have hmarks := Bool.or_eq_false_iff.1 (Bool.eq_false_iff.2 hmarked)
    cases hminus : Bytes.after? [Byte.minus] (Space.trimEnd text) with
    | some digits =>
      have hoff : Space.trimEnd text = Byte.minus :: digits := Bytes.eq_append_of_after? hminus
      rw [hoff] at htrails hmarks
      have hend : Space.trails digits = false :=
        (Space.trails_append rfl [] digits).symm.trans htrails
      have hbare : bare (ascii ",-0x" ++ digits) = ascii "-0x" ++ digits :=
        bare_eq_self (a := Byte.minus) (x := 0x78) [0x30] rfl (by decide) rfl hend
      simp only [hexOffset, List.tail_cons, if_neg hoffset, hminus, hbare] at h
      have hvalue : Literal.address (ascii "-0x" ++ digits) = .ok v :=
        (Argument.of_literal_eq_ok h).2
      rw [bare_eq_trimEnd hoff rfl (by decide), ← Literal.address_minusHexMark hmarks.2, hvalue]
    | none =>
      have hbare : bare (ascii ",0x" ++ Space.trimEnd text) = ascii "0x" ++ Space.trimEnd text :=
        bare_eq_self (a := 0x30) (x := 0x78) [] rfl (by decide) rfl htrails
      simp only [hexOffset, List.tail_cons, if_neg hoffset, hminus, hbare] at h
      obtain ⟨hform, hvalue⟩ := Argument.of_literal_eq_ok h
      have hsign : Bytes.startsWith [Byte.minus] (Space.trimEnd text) = false := by
        rw [Bytes.startsWith, hminus]
        rfl
      rw [bare_of_isHexDigits (Literal.isHexDigits_of_isInteger hform),
        ← Literal.address_hexMark hsign hmarks.1]
      exact hvalue

/-! ## Words -/

variable {t : DefinitionTable} {c d : Command} {e : Instruction} {w : Word} {labels : Labels}
  {index : Nat} {family : Family} {f g : Fields} {token : Bytes}

set_option maxRecDepth 8000 in
theorem table_immediate : ∀ e ∈ table,
    (e.operands.filter Operand.fillsImmediate).length ≤ 1 ∧ e.operands.head? ≠ some .imm := by
  decide

theorem foldlM_readMarked_imm {rest : List (Operand × Bytes)}
    (hrest : ∀ o ∈ rest.map Prod.fst, o.fillsImmediate = false)
    (h : rest.foldlM (readMarked family labels index) f = .ok g) : g.imm = f.imm := by
  induction rest generalizing f with
  | nil =>
    obtain rfl := Outcome.pure_eq_ok.1 h
    rfl
  | cons pair rest ih =>
    rw [List.foldlM_cons] at h
    obtain ⟨next, hnext, hfold⟩ := Outcome.bind_eq_ok.1 h
    obtain ⟨hfirst, hlater⟩ := List.forall_mem_cons.1 hrest
    obtain ⟨source, rfl⟩ := readOperand_eq_fill (readMarked_eq_ok hnext)
    rw [ih hlater hfold, Fields.fill_immediate, hfirst, if_neg Bool.false_ne_true]

/-- An immediate after the first operand, and before others that are none, is read with its
comma. -/
theorem readOperands_imm {first : Operand × Bytes} {init rest : List (Operand × Bytes)}
    (hrest : ∀ o ∈ rest.map Prod.fst, o.fillsImmediate = false)
    (h : readOperands family labels index (first :: init ++ (.imm, token) :: rest) = .ok f) :
    Argument.hasMark Byte.comma token = true ∧
      integerOperand .asmImmediateValueInvalid (bare token) = .ok f.imm := by
  obtain ⟨start, -, hall⟩ := Outcome.bind_eq_ok.1 h
  change (init ++ (Operand.imm, token) :: rest).foldlM (readMarked family labels index) start =
    _ at hall
  rw [List.foldlM_append] at hall
  obtain ⟨before, -, hall⟩ := Outcome.bind_eq_ok.1 hall
  rw [List.foldlM_cons] at hall
  obtain ⟨after, hmarked, hall⟩ := Outcome.bind_eq_ok.1 hall
  obtain ⟨v, hv, rfl⟩ := readOperand_imm (readMarked_eq_ok hmarked)
  refine ⟨?_, by rw [foldlM_readMarked_imm hrest hall, hv]⟩
  unfold readMarked at hmarked
  split at hmarked
  · assumption
  · cases hmarked

theorem mnemonic_of_find? {name : Bytes} (h : find? name = some e)
    (hs : e.family.hasSuffix = false) : e.mnemonic = name := by
  unfold find? at h
  split at h
  · rename_i row hrow
    obtain rfl := Option.some.inj h
    simpa using List.find?_some hrow
  · split at h
    · cases h
    · rw [Option.filter_eq_some_iff] at h
      rw [h.2] at hs
      cases hs

/-- A row with an immediate is no jump, has no suffix and has a place for it. -/
theorem row_of_imm {name : Bytes} (hfind : find? name = some e) (himm : Operand.imm ∈ e.operands) :
    e.mnemonic = name ∧ e.family ≠ .jump ∧ e.family.hasImmediate = true := by
  have hmem := mem_table_of_find? hfind
  have hjump : e.family ≠ .jump := by
    intro hfam
    rw [operands_of_jump hmem hfam] at himm
    exact absurd himm (by decide)
  have hplace := hasImmediate_of_mem hmem himm rfl hjump
  obtain ⟨hdest, hcop2⟩ := noSuffix_of_hasImmediate hplace
  exact ⟨mnemonic_of_find? hfind (Family.hasSuffix_eq_false.2 ⟨hcop2, hdest⟩), hjump, hplace⟩

/-- The word of an instruction keeps the lower half of its immediate. -/
theorem encode_imm (hfind : find? c.name = some e)
    (htoken : (Operand.imm, token) ∈ e.operands.zip c.args) (h : encode labels index c = .ok w) :
    ∃ v, Argument.hasMark Byte.comma token = true ∧
      integerOperand .asmImmediateValueInvalid (bare token) = .ok v ∧ w.imm = v.setWidth 16 := by
  obtain ⟨e', f, g, hfind', hlen, hops, hsuffix, rfl⟩ := encode_eq_ok h
  obtain rfl := Option.some.inj (hfind.symm.trans hfind')
  obtain ⟨-, -, hplace⟩ := row_of_imm hfind (List.of_mem_zip htoken).1
  obtain ⟨hdest, hcop2⟩ := noSuffix_of_hasImmediate hplace
  obtain rfl := readSuffix_eq_self hdest hcop2 hsuffix
  obtain ⟨hone, hhead⟩ := table_immediate e (mem_table_of_find? hfind)
  obtain ⟨init, rest, hsplit⟩ := List.append_of_mem htoken
  have hoperands : e.operands = init.map Prod.fst ++ .imm :: rest.map Prod.fst := by
    rw [← List.map_fst_zip (le_of_eq hlen.symm), hsplit, List.map_append, List.map_cons]
  have hrest : ∀ o ∈ rest.map Prod.fst, o.fillsImmediate = false := by
    rw [hoperands, List.filter_append, List.length_append, List.filter_cons_of_pos rfl,
      List.length_cons] at hone
    have hnone : (rest.map Prod.fst).filter Operand.fillsImmediate = [] :=
      List.eq_nil_of_length_eq_zero (by omega)
    intro o ho
    exact Bool.eq_false_iff.2 (List.filter_eq_nil_iff.1 hnone o ho)
  cases init with
  | nil =>
    rw [hoperands] at hhead
    exact absurd rfl hhead
  | cons first init =>
    rw [hsplit] at hops
    obtain ⟨hmark, hvalue⟩ := readOperands_imm hrest hops
    exact ⟨g.imm, hmark, hvalue, imm_pack_of_hasImmediate g hplace⟩

/-! ## Lines -/

theorem passesForms_of_imm (hfind : find? d.name = some e) (himm : Operand.imm ∈ e.operands)
    (hlen : d.name ∈ twoOperandForms → d.args.length = 3) : PassesForms d := by
  have hmem := mem_table_of_find? hfind
  obtain ⟨hname, hjump, -⟩ := row_of_imm hfind himm
  have hother : d.name ∉ shiftForms ++ [ascii "JALR"] := by
    have hrows : ∀ name ∈ shiftForms ++ [ascii "JALR"],
        (find? name).all (fun e => !e.operands.contains .imm) = true := by decide
    intro hmem
    have hrow := hrows _ hmem
    simp [hfind, himm] at hrow
  rw [List.mem_append, List.mem_singleton, not_or] at hother
  constructor
  · rintro (htwo | hshift)
    · exact hlen htwo
    · exact absurd hshift hother.1
  · rw [← hname]
    exact ⟨fun hj => hjump ((jump_iff hmem).1 (.inl hj)),
      fun hj => hjump ((jump_iff hmem).1 (.inr hj))⟩
  · exact fun hjalr => absurd hjalr hother.2
  · rw [← hname]
    exact mnemonic_ne_pseudo hmem

/-- The register of a load or store and the place that it accesses. A base that stands apart belongs
to the place. -/
def place? (d : Command) : Option (Bytes × Bytes) := match d.args with
  | [target, place] => some (target, place)
  | [target, offset, base] => some (target, offset ++ base)
  | _ => none

/-- The register, the offset and the base of a load or store of the form `target,offset(base)`. -/
def based? (d : Command) : Option (Bytes × Bytes × Bytes) :=
  (place? d).bind fun (target, place) => (Bytes.cut? Byte.opening place).bind fun (offset, rest) =>
    if place.contains Byte.closing && !rest.isEmpty then
      some (target, offset, rest.dropLast) else none

/-- The three operands of a load or store, before names are resolved. An offset that is left out is
zero. -/
def basedOperands (d : Command) (target offset base : Bytes) : Command :=
  let offset := Space.trimEnd offset
  d.withParts d.name
    [target, if offset = [Byte.comma] then ascii ",0x0" else offset, commaBefore base]

theorem access_of_based? {target offset base : Bytes} (h : based? d = some (target, offset, base)) :
    access t d = basedAccess t d target offset base := by
  unfold based? at h
  obtain ⟨⟨target', place⟩, hplace, h⟩ := Option.bind_eq_some_iff.1 h
  obtain ⟨⟨offset', rest⟩, hcut, h⟩ := Option.bind_eq_some_iff.1 h
  simp only at h hcut
  split at h
  · rename_i hclosed
    simp only [Bool.and_eq_true, Bool.not_eq_true'] at hclosed
    obtain ⟨rfl, rfl, rfl⟩ : target' = target ∧ offset' = offset ∧ rest.dropLast = base := by
      simpa using h
    unfold place? at hplace
    split at hplace
    · rename_i hargs
      obtain ⟨rfl, rfl⟩ : _ = target' ∧ _ = place := by simpa using hplace
      rw [access, hargs]
      simp only [hcut, hclosed, if_true, Bool.false_eq_true, if_false]
    · rename_i hargs
      obtain ⟨rfl, rfl⟩ : _ = target' ∧ _ = place := by simpa using hplace
      rw [access, hargs]
      simp only [hcut, hclosed, if_true, Bool.false_eq_true, if_false]
    · cases hplace
  · cases h

/-- The value of the immediate that a line gives: in an instruction with all its operands, in one
that leaves out the register that its first one repeats, or as the offset of a load or store once
names are resolved. An offset is hexadecimal, and the byte in front of it is passed over, comma or
not. -/
inductive WrittenImmediate (t : DefinitionTable) (d : Command) : Except NumeralError Word → Prop
  | operand {e : Instruction} {token : Bytes} (hfind : find? d.name = some e)
      (hload : d.name ∉ loadStores) (hlen : d.args.length = e.operands.length)
      (htoken : (Operand.imm, token) ∈ e.operands.zip d.args) :
      WrittenImmediate t d (Literal.integer (bare token))
  | short {e : Instruction} {target last token : Bytes} (hfind : find? d.name = some e)
      (hshort : d.name ∈ twoOperandForms) (hargs : d.args = [target, last])
      (htoken : (Operand.imm, token) ∈ e.operands.zip [target, commaBefore target, last]) :
      WrittenImmediate t d (Literal.integer (bare token))
  | offset {target offset base first text : Bytes} {mark : UInt8} {rest : List Bytes}
      {access : Command}
      (hload : d.name ∈ loadStores) (hbased : based? d = some (target, offset, base))
      (hresolved : t.substitute (basedOperands d target offset base) = .ok access)
      (hargs : access.args = first :: (mark :: text) :: rest) :
      WrittenImmediate t d (Literal.address (bare text))

variable {value : Except NumeralError Word} {lines : List Command}

theorem repeatFirst_of_short {target last : Bytes} (hshort : d.name ∈ twoOperandForms)
    (hargs : d.args = [target, last]) :
    instructionsOf t d = .ok [d.withParts d.name [target, commaBefore target, last]] := by
  rw [instructionsOf, if_pos (by simp [hargs, hshort]), repeatFirst, hargs]

/-- A line that gives an immediate stands for one instruction, and its word keeps the lower half. -/
theorem WrittenImmediate.kept (h : WrittenImmediate t d value) :
    ∃ p, instructionsOf t d = .ok [p] ∧ ∀ labels index w, encode labels index p = .ok w →
      ∃ v, value = .ok v ∧ w.imm = v.setWidth 16 := by
  cases h with
  | @operand e token hfind hload hlen htoken =>
    have himm := (List.of_mem_zip htoken).1
    have hforms : PassesForms d := by
      refine passesForms_of_imm hfind himm fun htwo => ?_
      rw [hlen]
      exact length_of_shortForm (mem_table_of_find? hfind) (.inl ((row_of_imm hfind himm).1 ▸ htwo))
    refine ⟨d, ?_, fun labels index w hencode => ?_⟩
    · rw [hforms.instructionsOf_eq, if_neg fun hboth => hload hboth.1]
    · obtain ⟨v, -, hvalue, hword⟩ := encode_imm hfind htoken hencode
      exact ⟨v, (Argument.of_literal_eq_ok hvalue).2, hword⟩
  | @short e target last token hfind hshort hargs htoken =>
    refine ⟨_, repeatFirst_of_short hshort hargs, fun labels index w hencode => ?_⟩
    obtain ⟨v, -, hvalue, hword⟩ :=
      encode_imm (c := d.withParts d.name [target, commaBefore target, last]) hfind htoken hencode
    exact ⟨v, (Argument.of_literal_eq_ok hvalue).2, hword⟩
  | @offset target offset base first text mark rest access hload hbased hresolved hargs =>
    obtain ⟨e, file, o, hrow⟩ := exists_isAccess hload
    have hform : instructionsOf t d =
        .ok [{ access with args := first :: hexOffset (mark :: text) :: rest }] := by
      rw [instructionsOf_loadStore hload, access_of_based? hbased]
      refine Outcome.bind_eq_ok.2 ⟨access, hresolved, ?_⟩
      simp only [hargs]
      rfl
    have hfind : find? access.name = some e := by
      rw [(Call.substitute_eq_ok hresolved).1.1]
      exact hrow.found
    refine ⟨_, hform, fun labels index w hencode => ?_⟩
    obtain ⟨v, hmark, hvalue, hword⟩ :=
      encode_imm (c := { access with args := first :: hexOffset (mark :: text) :: rest }) hfind
        (by rw [hrow.operands]; exact .tail _ (.head _)) hencode
    exact ⟨v, address_of_hexOffset hmark hvalue, hword⟩

theorem exists_token (args : List Bytes) (himm : Operand.imm ∈ e.operands)
    (hlen : args.length = e.operands.length) :
    ∃ token, (Operand.imm, token) ∈ e.operands.zip args := by
  obtain ⟨i, hi⟩ := List.mem_iff_getElem?.1 himm
  have hlt : i < args.length := by
    rw [hlen]
    exact (List.getElem?_eq_some_iff.1 hi).1
  exact ⟨args[i],
    List.mem_of_getElem? (List.getElem?_zip_eq_some.2 ⟨hi, List.getElem?_eq_getElem hlt⟩)⟩

/-- Every line with an immediate that is encoded gives it in one of the three ways, unless it is a
load or store with a bare address. -/
theorem exists_writtenImmediate (hfind : find? d.name = some e) (himm : Operand.imm ∈ e.operands)
    (hbased : d.name ∈ loadStores → based? d ≠ none) (hform : instructionsOf t d = .ok lines)
    (hencode : ∀ p ∈ lines, ∃ labels index w, encode labels index p = .ok w) :
    ∃ value, WrittenImmediate t d value := by
  by_cases hload : d.name ∈ loadStores
  · obtain ⟨⟨target, offset, base⟩, hparts⟩ := Option.ne_none_iff_exists'.1 (hbased hload)
    rw [instructionsOf_loadStore hload, access_of_based? hparts] at hform
    obtain ⟨access, hresolved, hargs⟩ := Outcome.bind_eq_ok.1 hform
    split at hargs
    · rename_i first second rest hsplit
      cases second with
      | nil => cases hargs
      | cons mark text => exact ⟨_, .offset hload hparts hresolved hsplit⟩
    · cases hargs
  · by_cases hshort : d.name ∈ twoOperandForms → d.args.length = 3
    · have hself : instructionsOf t d = .ok [d] := by
        rw [(passesForms_of_imm hfind himm hshort).instructionsOf_eq,
          if_neg fun hboth => hload hboth.1]
      obtain rfl := Except.ok.inj (hself.symm.trans hform)
      obtain ⟨labels, index, w, hw⟩ := hencode d List.mem_cons_self
      obtain ⟨e', -, -, hfind', hlen, -⟩ := encode_eq_ok hw
      obtain rfl := Option.some.inj (hfind.symm.trans hfind')
      obtain ⟨token, htoken⟩ := exists_token d.args himm hlen
      exact ⟨_, .operand hfind hload hlen htoken⟩
    · obtain ⟨htwo, hlen⟩ := Classical.not_imp.1 hshort
      rw [instructionsOf, if_pos (by simp [hlen, htwo]), repeatFirst] at hform
      split at hform
      · rename_i target last hargs
        have hthree : e.operands.length = 3 :=
          length_of_shortForm (mem_table_of_find? hfind) (.inl ((row_of_imm hfind himm).1 ▸ htwo))
        obtain ⟨token, htoken⟩ := exists_token [target, commaBefore target, last] himm hthree.symm
        exact ⟨_, .short hfind htwo hargs htoken⟩
      · cases hform

/-! ## Numbers that fit -/

theorem extension_eq_iff (v : Word) :
    (v.setWidth 16).signExtend 32 = v ∨ (v.setWidth 16).setWidth 32 = v ↔
      -0x8000 ≤ v.toInt ∧ v.toInt ≤ 0xFFFF := by
  constructor
  · rintro (hsigned | hunsigned)
    · have hlow := BitVec.le_toInt (v.setWidth 16)
      have hhigh := BitVec.toInt_lt (x := v.setWidth 16)
      rw [← hsigned, BitVec.toInt_signExtend_of_le (by decide)]
      omega
    · have hnat := congrArg BitVec.toNat hunsigned
      rw [BitVec.toNat_setWidth, BitVec.toNat_setWidth] at hnat
      have hint := BitVec.toInt_eq_toNat_cond v
      split at hint <;> omega
  · rintro ⟨hlow, hhigh⟩
    by_cases hsmall : v.toInt < 0x8000
    · exact .inl (eq_signExtend hlow hsmall).symm
    · refine .inr (BitVec.eq_of_toNat_eq ?_)
      have hint := BitVec.toInt_eq_toNat_cond v
      have hlt := v.isLt
      rw [BitVec.toNat_setWidth, BitVec.toNat_setWidth]
      split at hint <;> omega

/-- **Immediates are cut to 16 bits.** Take any line with an immediate of a scope that is assembled;
if it is a load or store, it has an offset and a base. It has one word, after those of the lines
before it. The immediate that it gives is a number, and the word holds the lower half of it. Sign or
zero extension of that half gives the number back if and only if it is from `-0x8000` to
`0xFFFF`. -/
theorem immediate_kept_iff (t : DefinitionTable) (base : Word) (pre post : List Command)
    (c d : Command) (e : Instruction) (words : List Word) (hline : instruction? c = some d)
    (hfind : find? d.name = some e) (himm : Operand.imm ∈ e.operands)
    (hbased : d.name ∈ loadStores → based? d ≠ none)
    (hwords : (assemble t base (pre ++ c :: post)).words = .ok words) :
    ∃ w before after, words = before ++ w :: after ∧
      before.length = (pre.flatMap (produced t)).length ∧ (∃ value, WrittenImmediate t d value) ∧
      ∀ value, WrittenImmediate t d value → ∃ v, value = .ok v ∧ w.imm = v.setWidth 16 ∧
        (w.imm.signExtend 32 = v ∨ w.imm.setWidth 32 = v ↔ -0x8000 ≤ v.toInt ∧
          v.toInt ≤ 0xFFFF) := by
  obtain ⟨lines, hform⟩ := instructionsOf_of_words hline hwords
  obtain ⟨labels, before, code, after, hsplit, hbefore, hlen, hcode⟩ := words_line hwords
  rw [produced_of_instruction? hline hform] at hlen hcode
  have hencode : ∀ p ∈ lines, ∃ labels index w, encode labels index p = .ok w := by
    intro p hp
    obtain ⟨k, hk⟩ := List.mem_iff_getElem?.1 hp
    obtain ⟨w, -, hw⟩ := hcode k p hk
    exact ⟨_, _, w, hw⟩
  have hexists := exists_writtenImmediate hfind himm hbased hform hencode
  obtain ⟨p, hone⟩ : ∃ p, lines = [p] := by
    obtain ⟨value, hwritten⟩ := hexists
    obtain ⟨p, hp, -⟩ := hwritten.kept
    exact ⟨p, Except.ok.inj (hform.symm.trans hp)⟩
  subst hone
  obtain ⟨w, rfl⟩ := List.length_eq_one_iff.1 hlen
  obtain ⟨_, hw, hword⟩ := hcode 0 p rfl
  obtain rfl := Option.some.inj hw
  refine ⟨w, before, after, by rw [hsplit, List.append_assoc]; rfl, hbefore, hexists, ?_⟩
  intro value hwritten
  obtain ⟨p', hp', hkept⟩ := hwritten.kept
  obtain rfl : p = p' := List.singleton_inj.1 (Except.ok.inj (hform.symm.trans hp'))
  obtain ⟨v, hvalue, hlower⟩ := hkept _ _ _ hword
  refine ⟨v, hvalue, hlower, ?_⟩
  rw [hlower]
  exact extension_eq_iff v

/-- A scope with a load from a negative offset. -/
def offsetLoad : List Command := ["nop", "next: lw $t0,-8($t1)"].map fun line =>
    Command.ofLine (ascii line)

set_option maxRecDepth 8000 in
theorem immediate_kept_offset :
    (assemble {} 0 offsetLoad).words = .ok [0x00000000, 0x8D28FFF8] ∧
      ((0x8D28FFF8 : Word).imm.signExtend 32 = -8 ∨ (0x8D28FFF8 : Word).imm.setWidth 32 = -8) := by
  have hwords : (assemble {} 0 offsetLoad).words = .ok [0x00000000, 0x8D28FFF8] := by decide
  obtain ⟨w, before, after, hsplit, hbefore, -, hkept⟩ :=
    immediate_kept_iff {} 0 [Command.ofLine (ascii "nop")] []
      (Command.ofLine (ascii "next: lw $t0,-8($t1)")) _ _ _ rfl rfl (by decide) (by decide) hwords
  obtain ⟨v, hvalue, -, hiff⟩ := hkept _ (.offset (by decide) rfl rfl rfl)
  refine ⟨hwords, ?_⟩
  obtain rfl : -8 = v := Except.ok.inj hvalue
  have hbefore' : before.length = 1 := hbefore
  obtain ⟨first, rfl⟩ := List.length_eq_one_iff.1 hbefore'
  simp only [List.cons_append, List.nil_append, List.cons.injEq] at hsplit
  obtain ⟨-, rfl, -⟩ := hsplit
  exact hiff.2 (by decide)

set_option maxRecDepth 8000 in
/-- A number of 17 bits is accepted, and the word holds another one. -/
theorem immediate_cut :
    WrittenImmediate {} (Command.ofLine (ascii "addiu $t0,$t1,0x12345")) (.ok 0x12345) ∧
      (assemble {} 0 [Command.ofLine (ascii "addiu $t0,$t1,0x12345")]).words = .ok [0x25282345] ∧
      (0x25282345 : Word).imm.signExtend 32 ≠ 0x12345 ∧
      (0x25282345 : Word).imm.setWidth 32 ≠ 0x12345 := by
  have hwritten : WrittenImmediate {} (Command.ofLine (ascii "addiu $t0,$t1,0x12345"))
      (Literal.integer (bare (ascii ",0x12345"))) := .operand rfl (by decide) rfl (by decide)
  exact ⟨hwritten, by decide, by decide, by decide⟩

end Assembly

end CheatScript
