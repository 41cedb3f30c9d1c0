import CheatScript.Proofs.AccessAddresses

/-!
# Proofs: the code of a line

A line of a scope may have labels in front of its instruction. The words of most instructions depend
on no label: they are the same wherever the line stands, on its own or in a scope.
-/

namespace CheatScript.Assembly

open Instruction

variable {t : DefinitionTable} {c d : Command} {base : Word} {lines : List Command}
    {code : List Word}

/-! ## Labels in front -/

/-- The name and the arguments of the instruction after the labels of a line. -/
def instructionIn : (name : Bytes) → (args : List Bytes) → Option (Bytes × List Bytes)
  | name, [] => if isLabel name then none else some (name, [])
  | name, a :: args =>
    if isLabel name then instructionIn (Bytes.upper a) args else some (name, a :: args)

/-- The instruction after the labels of a line. -/
def instruction? (c : Command) : Option Command :=
  (instructionIn c.name c.args).map fun parts => c.withParts parts.1 parts.2

theorem instructionIn_eq_some {name : Bytes} {args : List Bytes} {parts : Bytes × List Bytes}
    (h : instructionIn name args = some parts) :
    isLabel parts.1 = false ∧
      producedIn t c name args = (instructionsOf t (c.withParts parts.1 parts.2)).toOption.getD
        [] := by
  induction args generalizing name with
  | nil =>
    unfold instructionIn at h
    split at h
    · cases h
    · rename_i hlabel
      obtain rfl := Option.some.inj h
      exact ⟨Bool.eq_false_iff.2 hlabel, by rw [producedIn, if_neg hlabel]⟩
  | cons a args ih =>
    unfold instructionIn at h
    split at h
    · rename_i hlabel
      rw [producedIn, if_pos hlabel]
      exact ih h
    · rename_i hlabel
      obtain rfl := Option.some.inj h
      exact ⟨Bool.eq_false_iff.2 hlabel, by rw [producedIn, if_neg hlabel]⟩

theorem isLabel_of_instruction? (h : instruction? c = some d) : isLabel d.name = false := by
  obtain ⟨parts, hparts, rfl⟩ := Option.map_eq_some_iff.1 h
  exact (instructionIn_eq_some (t := {}) (c := c) hparts).1

/-- A line produces what its instruction stands for. -/
theorem produced_of_instruction? (h : instruction? c = some d)
    (hform : instructionsOf t d = .ok lines) : produced t c = lines := by
  obtain ⟨parts, hparts, rfl⟩ := Option.map_eq_some_iff.1 h
  rw [produced, (instructionIn_eq_some hparts).2, hform]
  rfl

theorem instructionsOf_of_emit {x y : Expanded} (h : x.emit t d = .ok y) :
    ∃ lines, instructionsOf t d = .ok lines := by
  obtain ⟨lines, hlines, -⟩ := Outcome.bind_eq_ok.1 h
  exact ⟨lines, hlines⟩

theorem instructionsOf_of_addLine {x y : Expanded} {name : Bytes} {args : List Bytes}
    {parts : Bytes × List Bytes} (hparts : instructionIn name args = some parts)
    (h : Expanded.addLine t c x name args = .ok y) :
    ∃ lines, instructionsOf t (c.withParts parts.1 parts.2) = .ok lines := by
  induction args generalizing x name with
  | nil =>
    unfold instructionIn at hparts
    split at hparts
    · cases hparts
    · rename_i hlabel
      obtain rfl := Option.some.inj hparts
      rw [Expanded.addLine, if_neg hlabel] at h
      exact instructionsOf_of_emit h
  | cons a args ih =>
    unfold instructionIn at hparts
    split at hparts
    · rename_i hlabel
      rw [Expanded.addLine, if_pos hlabel] at h
      obtain ⟨next, -, hrest⟩ := Outcome.bind_eq_ok.1 h
      exact ih hparts hrest
    · rename_i hlabel
      obtain rfl := Option.some.inj hparts
      rw [Expanded.addLine, if_neg hlabel] at h
      exact instructionsOf_of_emit h

/-- In a scope that is assembled, every instruction has a form. -/
theorem instructionsOf_of_words {pre post : List Command} {words : List Word}
    (hline : instruction? c = some d)
    (hwords : (assemble t base (pre ++ c :: post)).words = .ok words) :
    ∃ lines, instructionsOf t d = .ok lines := by
  obtain ⟨parts, hparts, rfl⟩ := Option.map_eq_some_iff.1 hline
  obtain ⟨x, hexpand⟩ := expanded_of_words hwords
  rw [Expanded.ofCommands, List.foldlM_append] at hexpand
  obtain ⟨before, -, hrest⟩ := Outcome.bind_eq_ok.1 hexpand
  rw [List.foldlM_cons] at hrest
  obtain ⟨next, hnext, -⟩ := Outcome.bind_eq_ok.1 hrest
  exact instructionsOf_of_addLine hparts hnext

/-! ## Words that depend on no label -/

/-- Whether instructions are encoded as given words, whatever the labels and wherever they stand. -/
def EncodedAs (lines : List Command) (code : List Word) : Prop :=
  List.Forall₂ (fun d w => ∀ labels index, encode labels index d = .ok w) lines code

theorem EncodedAs.words (h : EncodedAs lines code) (labels : Labels) (base : Word) :
    ∀ index, (encodeFrom labels base index lines).words = .ok code := by
  induction h with
  | nil => exact fun _ => rfl
  | @cons d w lines code hfirst _ ih =>
    exact fun index => words_encodeFrom_cons.2 ⟨w, code, hfirst labels index, ih (index + 1), rfl⟩

/-- A scope of one instruction is assembled to its words. -/
theorem EncodedAs.assemble_alone (h : EncodedAs lines code) (hlabel : isLabel d.name = false)
    (hform : instructionsOf t d = .ok lines) (base : Word) :
    (assemble t base [d]).words = .ok code := by
  have hexpand : Expanded.ofCommands t [d] = .ok { code := lines } := by
    rw [Expanded.ofCommands, List.foldlM_cons, addLine_eq hlabel, Expanded.emit, hform]
    rfl
  rw [assemble, hexpand]
  exact h.words [] base 0

/-- In a scope that is assembled, the words of a line stand after those of the lines before it. -/
theorem EncodedAs.words_line {pre post : List Command} {words : List Word}
    (h : EncodedAs lines code)
    (hline : instruction? c = some d) (hform : instructionsOf t d = .ok lines)
    (hwords : (assemble t base (pre ++ c :: post)).words = .ok words) :
    ∃ before after, words = before ++ code ++ after ∧
      before.length = (pre.flatMap (produced t)).length := by
  obtain ⟨x, hexpand⟩ := expanded_of_words hwords
  obtain ⟨before, own, after, hsplit, hbefore, hown⟩ := words_expanded hexpand hwords
  rw [produced_of_instruction? hline hform, h.words x.labels base] at hown
  obtain rfl := Except.ok.inj hown
  exact ⟨before, after, hsplit, hbefore⟩

/-- Whether the words of a line are given ones: its instruction alone is assembled to them, and in
every scope that is assembled they stand after the words of the lines before. -/
structure HasCode (c d : Command) (code : List Word) : Prop where
  alone : ∀ t base, (assemble t base [d]).words = .ok code
  inScope : ∀ t base pre post words, (assemble t base (pre ++ c :: post)).words = .ok words →
    ∃ before after, words = before ++ code ++ after ∧
    before.length = (pre.flatMap (produced t)).length

theorem EncodedAs.hasCode (h : EncodedAs lines code) (hline : instruction? c = some d)
    (hform : ∀ t, instructionsOf t d = .ok lines) : HasCode c d code where
  alone t base := h.assemble_alone (isLabel_of_instruction? hline) (hform t) base
  inScope t _ _ _ _ hwords := h.words_line hline (hform t) hwords

/-! ## Instructions of three kinds -/

variable {target source value offset : Bytes} {r q : BitVec 5} {v : Word} {e : Instruction}
  {labels : Labels} {index : Nat}

theorem readMarked_eq {family : Family} {f : Fields} {o : Operand} {s : Bytes}
    (h : Argument.hasMark Byte.comma s = true) :
    readMarked family labels index f (o, s) = readOperand family labels index f o (bare s) := by
  rw [readMarked, if_pos h]

theorem readOperand_slot_eq {family : Family} {f : Fields} {o : Operand} {file : RegisterFile}
    {slot : Slot} {s : Bytes} (ho : o.register? = some (file, slot)) (h : file.find? s = some r) :
    readOperand family labels index f o s = .ok (f.setSlot slot r) := by
  rw [readOperand_register ho, h]

theorem readOperand_imm_eq {family : Family} {f : Fields} {s : Bytes}
    (h : integerOperand .asmImmediateValueInvalid s = .ok v) :
    readOperand family labels index f .imm s = .ok { f with imm := v } := by
  rw [readOperand, h]
  rfl

theorem readSuffix_normal {name : Bytes} {f : Fields} : readSuffix .normal name f = .ok f := by
  unfold readSuffix
  split
  · rfl
  · rfl

/-- The word of an instruction with an immediate is packed from its operands. -/
theorem encode_normal {f : Fields} (hfind : find? c.name = some e) (hfam : e.family = .normal)
    (hlen : c.args.length = e.operands.length)
    (hops : readOperands .normal labels index (e.operands.zip c.args) = .ok f) :
    encode labels index c = .ok (e.pack f) := by
  refine encode_eq hfind hlen (hfam ▸ hops) ?_
  rw [hfam]
  exact readSuffix_normal

theorem encode_upper_eq (hname : c.name = ascii "LUI") (hargs : c.args = [target, value])
    (htarget : RegisterFile.general.find? (bare target) = some r)
    (hmark : Argument.hasMark Byte.comma value = true)
    (hvalue : integerOperand .asmImmediateValueInvalid (bare value) = .ok v) :
    encode labels index c = .ok (upperRow.pack { rt := r, imm := v }) := by
  refine encode_normal (by rw [hname, find?_upperRow]) rfl (by rw [hargs]; rfl) ?_
  rw [hargs]
  exact Outcome.bind_eq_ok.2 ⟨_, readOperand_slot_eq rfl htarget, Outcome.bind_eq_ok.2
    ⟨_, (readMarked_eq hmark).trans (readOperand_imm_eq hvalue), rfl⟩⟩

theorem encode_arithmetic (hfind : find? c.name = some e) (hfam : e.family = .normal)
    (hoperands : e.operands = [.rt, .rs, .imm]) (hargs : c.args = [target, source, value])
    (htarget : RegisterFile.general.find? (bare target) = some r)
    (hsourceMark : Argument.hasMark Byte.comma source = true)
    (hsource : RegisterFile.general.find? (bare source) = some q)
    (hmark : Argument.hasMark Byte.comma value = true)
    (hvalue : integerOperand .asmImmediateValueInvalid (bare value) = .ok v) :
    encode labels index c = .ok (e.pack { rs := q, rt := r, imm := v }) := by
  refine encode_normal hfind hfam (by rw [hargs, hoperands]; rfl) ?_
  rw [hargs, hoperands]
  exact Outcome.bind_eq_ok.2 ⟨_, readOperand_slot_eq rfl htarget, Outcome.bind_eq_ok.2
    ⟨_, (readMarked_eq hsourceMark).trans (readOperand_slot_eq rfl hsource), Outcome.bind_eq_ok.2
    ⟨_, (readMarked_eq hmark).trans (readOperand_imm_eq hvalue), rfl⟩⟩⟩

theorem encode_access_eq {file : RegisterFile} {o : Operand} (hrow : IsAccess c.name e file o)
    (hargs : c.args = [target, offset, source]) (htarget : file.find? (bare target) = some r)
    (hmark : Argument.hasMark Byte.comma offset = true)
    (hvalue : integerOperand .asmImmediateValueInvalid (bare offset) = .ok v)
    (hsourceMark : Argument.hasMark Byte.comma source = true)
    (hsource : RegisterFile.general.find? (bare source) = some q) :
    encode labels index c = .ok (e.pack { rs := q, rt := r, imm := v }) := by
  refine encode_normal hrow.found hrow.family (by rw [hargs, hrow.operands]; rfl) ?_
  rw [hargs, hrow.operands]
  exact Outcome.bind_eq_ok.2 ⟨_, readOperand_slot_eq hrow.register htarget, Outcome.bind_eq_ok.2
    ⟨_, (readMarked_eq hmark).trans (readOperand_imm_eq hvalue), Outcome.bind_eq_ok.2
    ⟨_, (readMarked_eq hsourceMark).trans (readOperand_slot_eq rfl hsource), rfl⟩⟩⟩

theorem execute_upperRow (s : Registers) (r : BitVec 5) (v : Word) :
    s.execute (upperRow.pack { rt := r, imm := v }) =
      some (s.write r ((v.setWidth 16 ++ 0#16 : BitVec 32).signExtend 64)) := by
  have hop := major_pack { rt := r, imm := v } (mem_table_of_find? find?_upperRow) rfl
  rw [Registers.execute_upper s hop, rt_pack _ rfl, imm_pack _ rfl]

end CheatScript.Assembly
