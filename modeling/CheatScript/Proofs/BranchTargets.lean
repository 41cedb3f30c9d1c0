import CheatScript.Proofs.AssemblerForms
import CheatScript.Proofs.InstructionWords

/-!
# Proofs: branches lead to their labels

A label is noted in the first pass with the number of instructions before it, a branch is encoded in
the second pass as a distance, and the disassembler adds that distance to the address of the branch.
The address it shows is the one at which the lines after the label begin.
-/

namespace CheatScript.Assembly

open Instruction Disassembly

variable {t : DefinitionTable} {c : Command} {labels : Labels} {base w : Word}

/-! ## What a line defines and produces -/

/-- The labels at the start of a line with the given name and arguments, without their colons. -/
def labelsIn : (name : Bytes) → (args : List Bytes) → List Bytes
  | name, [] => if isLabel name then [Bytes.dropTail [Byte.colon] name] else []
  | name, a :: args =>
    if isLabel name then Bytes.dropTail [Byte.colon] name :: labelsIn (Bytes.upper a) args else []

/-- The instructions that follow those labels, as the first pass writes them. -/
def producedIn (t : DefinitionTable) (c : Command) : (name : Bytes) → (args : List Bytes) →
    List Command
  | name, [] =>
    if isLabel name then [] else (instructionsOf t (c.withParts name [])).toOption.getD []
  | name, a :: args =>
    if isLabel name then producedIn t c (Bytes.upper a) args
    else (instructionsOf t (c.withParts name (a :: args))).toOption.getD []

/-- The instructions of a line, each of which is assembled to one word. -/
def produced (t : DefinitionTable) (c : Command) : List Command := producedIn t c c.name c.args

/-- Whether a line defines a label, in any letter case. -/
def Defines (c : Command) (label : Bytes) : Prop :=
  ∃ own ∈ labelsIn c.name c.args, Bytes.upper own = Bytes.upper label

/-- Whether an instruction is a branch whose target is given as a label. -/
def BranchesTo (c : Command) (label : Bytes) : Prop :=
  ∃ (e : Instruction) (i : Nat) (token : Bytes), find? c.name = some e ∧ e.family ≠ .jump ∧
    e.operands[i]? = some .label ∧ c.args[i]? = some token ∧ bare token = label

/-! ## The first pass -/

/-- The keys of the labels in `cmds`, each with the number of instructions before it if `n`
instructions are before the first line. -/
def placesFrom (t : DefinitionTable) : (n : Nat) → List Command → Labels
  | _, [] => []
  | n, c :: cmds =>
    (labelsIn c.name c.args).map (fun label => (Bytes.upper label, n)) ++
      placesFrom t (n + (produced t c).length) cmds

theorem mem_placesFrom {key : Bytes} {n m : Nat} {cmds : List Command} :
    (key, m) ∈ placesFrom t n cmds ↔ ∃ pre d post, cmds = pre ++ d :: post ∧
      (∃ own ∈ labelsIn d.name d.args, Bytes.upper own = key) ∧
      m = n + (pre.flatMap (produced t)).length := by
  induction cmds generalizing n with
  | nil => simp [placesFrom]
  | cons c cmds ih =>
    rw [placesFrom, List.mem_append, ih]
    constructor
    · rintro (hmem | ⟨pre, d, post, rfl, hown, rfl⟩)
      · obtain ⟨own, hown, hpair⟩ := List.mem_map.1 hmem
        obtain ⟨rfl, rfl⟩ := Prod.mk.inj hpair
        exact ⟨[], c, cmds, rfl, ⟨own, hown, rfl⟩, rfl⟩
      · refine ⟨c :: pre, d, post, rfl, hown, ?_⟩
        rw [List.flatMap_cons, List.length_append, Nat.add_assoc]
    · rintro ⟨pre, d, post, hcmds, hown, rfl⟩
      cases pre with
      | nil =>
        obtain ⟨rfl, rfl⟩ := List.cons.inj hcmds
        obtain ⟨own, hmem, rfl⟩ := hown
        exact .inl (List.mem_map.2 ⟨own, hmem, rfl⟩)
      | cons c' pre =>
        obtain ⟨rfl, rfl⟩ := List.cons.inj hcmds
        refine .inr ⟨pre, d, post, rfl, hown, ?_⟩
        rw [List.flatMap_cons, List.length_append, Nat.add_assoc]

/-- What a successful line adds to the scope: its instructions at the end, its labels in front, at
the instruction that comes next. No key is there twice. -/
structure Adds (x y : Expanded) (names : List Bytes) (new : List Command) : Prop where
  code : y.code = x.code ++ new
  labels : y.labels = (names.map fun name => (Bytes.upper name, x.code.length)).reverse ++ x.labels
  keys : (x.labels.map Prod.fst).Nodup → (y.labels.map Prod.fst).Nodup

theorem define_adds {x y : Expanded} (h : x.define c = .ok y) :
    Adds x y [Bytes.dropTail [Byte.colon] c.name] [] := by
  unfold Expanded.define at h
  simp only at h
  split at h
  · simp [Command.refuse] at h
  · split at h
    · simp [Command.refuse] at h
    · rename_i hnew
      obtain rfl := Except.ok.inj h
      refine ⟨(List.append_nil _).symm, rfl, fun hkeys => ?_⟩
      refine List.nodup_cons.2 ⟨fun hmem => hnew ?_, hkeys⟩
      obtain ⟨pair, hpair, hkey⟩ := List.mem_map.1 hmem
      exact List.lookup_isSome_iff.2 ⟨pair, hpair, beq_iff_eq.2 hkey.symm⟩

theorem emit_adds {x y : Expanded} (h : x.emit t c = .ok y) :
    Adds x y [] ((instructionsOf t c).toOption.getD []) := by
  obtain ⟨new, hnew, hy⟩ := Outcome.bind_eq_ok.1 h
  obtain rfl := Outcome.pure_eq_ok.1 hy
  rw [hnew]
  exact ⟨rfl, rfl, id⟩

theorem addLine_adds {x y : Expanded} {name : Bytes} {args : List Bytes}
    (h : Expanded.addLine t c x name args = .ok y) :
    Adds x y (labelsIn name args) (producedIn t c name args) := by
  induction args generalizing x name with
  | nil =>
    unfold Expanded.addLine at h
    unfold labelsIn producedIn
    by_cases hlabel : isLabel name = true
    · simp only [if_pos hlabel] at h ⊢
      exact define_adds h
    · simp only [if_neg hlabel] at h ⊢
      exact emit_adds h
  | cons a args ih =>
    unfold Expanded.addLine at h
    unfold labelsIn producedIn
    by_cases hlabel : isLabel name = true
    · simp only [if_pos hlabel] at h ⊢
      obtain ⟨z, hz, hy⟩ := Outcome.bind_eq_ok.1 h
      have hfirst := define_adds hz
      have hrest := ih hy
      have hlen : z.code.length = x.code.length := by rw [hfirst.code, List.append_nil]
      refine ⟨?_, ?_, fun hkeys => hrest.keys (hfirst.keys hkeys)⟩
      · rw [hrest.code, hfirst.code, List.append_nil]
      · rw [hrest.labels, hfirst.labels, hlen]
        simp [Command.withParts]
    · simp only [if_neg hlabel] at h ⊢
      exact emit_adds h

/-- The first pass keeps the instructions in order and notes each label once, at its place. -/
theorem foldlM_addLine {x y : Expanded} {cmds : List Command}
    (h : cmds.foldlM (fun x c => Expanded.addLine t c x c.name c.args) x = .ok y) :
    y.code = x.code ++ cmds.flatMap (produced t) ∧
      y.labels = (placesFrom t x.code.length cmds).reverse ++ x.labels ∧
      ((x.labels.map Prod.fst).Nodup → (y.labels.map Prod.fst).Nodup) := by
  induction cmds generalizing x with
  | nil =>
    obtain rfl := Outcome.pure_eq_ok.1 h
    exact ⟨(List.append_nil _).symm, rfl, id⟩
  | cons c cmds ih =>
    rw [List.foldlM_cons] at h
    obtain ⟨z, hz, hy⟩ := Outcome.bind_eq_ok.1 h
    have hline := addLine_adds hz
    obtain ⟨hcode, hlabels, hkeys⟩ := ih hy
    refine ⟨?_, ?_, fun hnodup => hkeys (hline.keys hnodup)⟩
    · rw [hcode, hline.code, List.append_assoc, List.flatMap_cons]
      rfl
    · have hlen : z.code.length = x.code.length + (produced t c).length := by
        rw [hline.code, List.length_append]
        rfl
      rw [hlabels, hline.labels, hlen, placesFrom, List.reverse_append, List.append_assoc]

theorem lookup_of_mem {key : Bytes} {place : Nat} (hkeys : (labels.map Prod.fst).Nodup)
    (h : (key, place) ∈ labels) : labels.lookup key = some place := by
  obtain ⟨before, after, rfl⟩ := List.append_of_mem h
  refine List.lookup_eq_some_iff.2 ⟨before, after, rfl, fun pair hpair => ?_⟩
  rw [List.map_append, List.map_cons, List.nodup_append] at hkeys
  have hne := hkeys.2.2 pair.1 (List.mem_map_of_mem hpair) key List.mem_cons_self
  exact bne_iff_ne.2 hne.symm

/-- A label is found exactly at the lines that define it, with the number of instructions before. -/
theorem lookup_ofCommands {x : Expanded} {cmds : List Command}
    (h : Expanded.ofCommands t cmds = .ok x) (label : Bytes) (place : Nat) :
    x.labels.lookup (Bytes.upper label) = some place ↔
      ∃ pre d post, cmds = pre ++ d :: post ∧ Defines d label ∧
        place = (pre.flatMap (produced t)).length := by
  obtain ⟨-, hlabels, hkeys⟩ := foldlM_addLine h
  have hnodup := hkeys List.nodup_nil
  have hplaces : (Bytes.upper label, place) ∈ x.labels ↔
      (Bytes.upper label, place) ∈ placesFrom t 0 cmds := by
    rw [hlabels]
    simp
  simp only [mem_placesFrom, Nat.zero_add] at hplaces
  refine Iff.trans ⟨fun hfind => ?_, lookup_of_mem hnodup⟩ hplaces
  obtain ⟨before, after, heq, -⟩ := List.lookup_eq_some_iff.1 hfind
  rw [heq]
  exact List.mem_append_right _ List.mem_cons_self

/-! ## The second pass -/

theorem words_encodeFrom_cons {words : List Word} {index : Nat} {code : List Command} :
    (encodeFrom labels base index (c :: code)).words = .ok words ↔
      ∃ w rest, encode labels index c = .ok w ∧
        (encodeFrom labels base (index + 1) code).words = .ok rest ∧ words = w :: rest := by
  rw [encodeFrom]
  cases hword : encode labels index c with
  | error fault => simp [Outcome.words]
  | ok w =>
    cases hfail : (encodeFrom labels base (index + 1) code).failure with
    | some fault => simp [Outcome.words, hfail]
    | none => simp [Outcome.words, hfail, eq_comm]

theorem words_encodeFrom {words : List Word} {index : Nat} {code : List Command}
    (h : (encodeFrom labels base index code).words = .ok words) :
    words.length = code.length ∧
      ∀ k c, code[k]? = some c → ∃ w, words[k]? = some w ∧ encode labels (index + k) c = .ok w := by
  induction code generalizing index words with
  | nil =>
    obtain rfl : [] = words := Except.ok.inj h
    simp
  | cons c code ih =>
    obtain ⟨w, rest, hword, hrest, rfl⟩ := words_encodeFrom_cons.1 h
    obtain ⟨hlen, hat⟩ := ih hrest
    refine ⟨by rw [List.length_cons, List.length_cons, hlen], fun k d hd => ?_⟩
    cases k with
    | zero =>
      obtain rfl := Option.some.inj hd
      exact ⟨w, rfl, hword⟩
    | succ k =>
      obtain ⟨v, hv, hvword⟩ := hat k d hd
      refine ⟨v, hv, ?_⟩
      rw [← hvword, Nat.add_assoc, Nat.add_comm 1 k]

theorem words_encodeFrom_append {words : List Word} {index : Nat} {first second : List Command}
    (h : (encodeFrom labels base index (first ++ second)).words = .ok words) :
    ∃ front back, words = front ++ back ∧ (encodeFrom labels base index first).words = .ok front ∧
      (encodeFrom labels base (index + first.length) second).words = .ok back := by
  induction first generalizing index words with
  | nil => exact ⟨[], words, rfl, rfl, h⟩
  | cons c first ih =>
    obtain ⟨w, rest, hword, hrest, rfl⟩ := words_encodeFrom_cons.1 h
    obtain ⟨front, back, rfl, hfront, hback⟩ := ih hrest
    refine ⟨w :: front, back, rfl, words_encodeFrom_cons.2 ⟨w, front, hword, hfront, rfl⟩, ?_⟩
    rwa [List.length_cons, Nat.add_comm first.length 1, ← Nat.add_assoc]

/-! ## One branch -/

set_option maxRecDepth 8000 in
/-- The target of a branch or jump is its last operand. -/
theorem table_labelLast : ∀ e ∈ table, Operand.label ∉ e.operands.dropLast := by decide

theorem eq_dropLast_append {α : Type} {l : List α} {i : Nat} {a : α} (hi : l[i]? = some a)
    (hlast : l.length ≤ i + 1) : l = l.dropLast ++ [a] := by
  obtain ⟨hlt, hget⟩ := List.getElem?_eq_some_iff.1 hi
  have hne : l ≠ [] := List.ne_nil_of_length_pos (by omega)
  have hidx : i = l.length - 1 := by omega
  have hlastElem : l.getLast hne = a := by
    rw [List.getLast_eq_getElem, ← hget]
    simp only [hidx]
  rw [← hlastElem, List.dropLast_append_getLast hne]

theorem readOperands_label {family : Family} {index : Nat} {init : List (Operand × Bytes)}
    {token : Bytes} {f : Fields}
    (h : readOperands family labels index (init ++ [(.label, token)]) = .ok f) :
    labelOperand family labels index (bare token) = .ok f.imm := by
  have hread : ∀ {g : Fields}, readOperand family labels index g .label (bare token) = .ok f →
      labelOperand family labels index (bare token) = .ok f.imm := by
    intro g hg
    obtain ⟨v, hv, hf⟩ := Outcome.bind_eq_ok.1 hg
    obtain rfl := Outcome.pure_eq_ok.1 hf
    exact hv
  cases init with
  | nil =>
    obtain ⟨g, hg, hf⟩ := Outcome.bind_eq_ok.1 h
    obtain rfl := Outcome.pure_eq_ok.1 hf
    exact hread hg
  | cons first init =>
    obtain ⟨g, -, hrest⟩ := Outcome.bind_eq_ok.1 h
    change (init ++ [(Operand.label, token)]).foldlM (readMarked family labels index) g = _ at hrest
    rw [List.foldlM_append] at hrest
    obtain ⟨g', -, hlast⟩ := Outcome.bind_eq_ok.1 hrest
    rw [List.foldlM_cons] at hlast
    obtain ⟨g'', hmarked, hf⟩ := Outcome.bind_eq_ok.1 hlast
    obtain rfl := Outcome.pure_eq_ok.1 hf
    unfold readMarked at hmarked
    split at hmarked
    · exact hread hmarked
    · cases hmarked

theorem readSuffix_eq_self {family : Family} {name : Bytes} {f g : Fields}
    (hdest : family.hasDest = false) (hcop2 : family ≠ .cop2)
    (h : readSuffix family name f = .ok g) : g = f := by
  unfold readSuffix at h
  split at h
  · exact (Except.ok.inj h).symm
  · rw [if_neg hcop2, hdest, if_neg Bool.false_ne_true] at h
    exact (Except.ok.inj h).symm

theorem hasImmediate_of_mem {e : Instruction} {o : Operand} (he : e ∈ table) (ho : o ∈ e.operands)
    (hfills : o.fillsImmediate = true) (hjump : e.family ≠ .jump) :
    e.family.hasImmediate = true := by
  have hplace := List.all_eq_true.1 (table_hasPlace e he) o ho
  simp only [Operand.hasPlace, Bool.and_eq_true] at hplace
  simpa [hfills, hjump] using hplace.2

/-- The families with an immediate have no suffix. -/
theorem noSuffix_of_hasImmediate {family : Family} (h : family.hasImmediate = true) :
    family.hasDest = false ∧ family ≠ .cop2 := by
  cases family <;> first | exact ⟨rfl, by decide⟩ | cases h

/-- The word of a branch holds the distance from the next instruction to its label. -/
theorem encode_branch {index : Nat} {label : Bytes} (hbranch : BranchesTo c label)
    (h : encode labels index c = .ok w) :
    ∃ e f place, e ∈ table ∧ e.family ≠ .jump ∧ w = e.pack f ∧ f.FilledBy e.operands ∧
      f.dest = 0 ∧ f.interlock = 0 ∧ labels.lookup (Bytes.upper label) = some place ∧
      f.imm = BitVec.ofInt 32 (place - (index + 1)) := by
  obtain ⟨e, i, token, hfind, hjump, hop, harg, rfl⟩ := hbranch
  obtain ⟨e', f, g, hfind', hlen, hops, hsuffix, rfl⟩ := encode_eq_ok h
  obtain rfl := Option.some.inj (hfind.symm.trans hfind')
  have hmem := mem_table_of_find? hfind
  have hfilled := filledBy_of_read hlen hops hsuffix
  have himmediate := hasImmediate_of_mem hmem (List.mem_of_getElem? hop) rfl hjump
  obtain ⟨hdest, hcop2⟩ := noSuffix_of_hasImmediate himmediate
  obtain rfl := readSuffix_eq_self hdest hcop2 hsuffix
  have hlast : e.operands.length ≤ i + 1 := by
    by_contra hlt
    refine table_labelLast e hmem (List.mem_of_getElem? (i := i) ?_)
    rw [List.getElem?_dropLast, if_pos (by omega), hop]
  have hzip : e.operands.zip c.args =
      e.operands.dropLast.zip c.args.dropLast ++ [(.label, token)] := by
    have hargs := eq_dropLast_append harg (by omega)
    have hoperands := eq_dropLast_append hop hlast
    conv_lhs => rw [hargs, hoperands]
    rw [List.zip_append (by simp [hlen])]
    rfl
  rw [hzip] at hops
  have hvalue := readOperands_label hops
  rw [labelOperand, if_neg hjump] at hvalue
  cases hplace : labels.lookup (Bytes.upper (bare token)) with
  | none =>
    rw [hplace] at hvalue
    cases hvalue
  | some place =>
    rw [hplace] at hvalue
    refine ⟨e, { g with dest := 0, interlock := 0 }, place, hmem, hjump, ?_, ?_, rfl, rfl, rfl,
      (Except.ok.inj hvalue).symm⟩
    · have hsame : Fields.SameNumbers e.family { g with dest := 0, interlock := 0 } g :=
        Fields.SameNumbers.withSuffix ⟨fun _ _ => rfl, fun _ => rfl, fun _ => rfl, fun _ => rfl⟩
      refine (pack_congr hsame (fun h => ?_) (fun h => ?_)).symm
      · rw [hdest] at h
        cases h
      · exact absurd h hcop2
    · refine ⟨fun s hs => ?_, hfilled.shift, hfilled.immediate⟩
      have hslot := hfilled.slot s hs
      cases s <;> exact hslot

/-- The branches that comparisons are followed by are in the table, with their label last. -/
theorem find?_branch {b : ComparingBranch} (hb : b ∈ comparingBranches) :
    ∃ e, find? b.branch = some e ∧ e.family ≠ .jump ∧ e.operands[2]? = some .label := by
  have hbne : find? (ascii "BNE") = some (entry "BNE" .normal 0b000101 [.rs, .rt, .label]) := rfl
  have hbeq : find? (ascii "BEQ") = some (entry "BEQ" .normal 0b000100 [.rs, .rt, .label]) := rfl
  have hname : b.branch = ascii "BNE" ∨ b.branch = ascii "BEQ" := by
    simp only [comparingBranches, List.mem_cons, List.not_mem_nil, or_false] at hb
    rcases hb with rfl | rfl | rfl | rfl <;> simp
  rcases hname with h | h
  · exact ⟨_, h ▸ hbne, by decide, rfl⟩
  · exact ⟨_, h ▸ hbeq, by decide, rfl⟩

/-- The instructions for a branch on the order of two registers. -/
theorem instructionsOf_eq_compareAndBranch {b : ComparingBranch} (hb : b ∈ comparingBranches)
    (hname : c.name = b.name) (hlen : c.args.length = 3) :
    instructionsOf t c = compareAndBranch b c := by
  have hfind : comparingBranches.find? (·.name == c.name) = some b := by
    rw [hname]
    simp only [comparingBranches, List.mem_cons, List.not_mem_nil, or_false] at hb
    rcases hb with rfl | rfl | rfl | rfl <;> rfl
  have hnames : ∀ b ∈ comparingBranches, b.name ∉ ["J", "JAL", "JALR"].map ascii := by decide
  have hother : c.name ≠ ascii "J" ∧ c.name ≠ ascii "JAL" ∧ c.name ≠ ascii "JALR" := by
    simpa [hname] using hnames b hb
  unfold instructionsOf
  rw [hfind]
  simp [hlen, hother]

/-- A branch on the order of two registers becomes a comparison and a branch to its label. -/
theorem instructionsOf_comparing {b : ComparingBranch} {r1 r2 token : Bytes}
    (hb : b ∈ comparingBranches) (hname : c.name = b.name) (hargs : c.args = [r1, r2, token]) :
    ∃ compare branch, instructionsOf t c = .ok [compare, branch] ∧
    BranchesTo branch (bare token) := by
  have hform := instructionsOf_eq_compareAndBranch (t := t) hb hname (by rw [hargs]; rfl)
  obtain ⟨e, he, hjump, hlabel⟩ := find?_branch hb
  unfold compareAndBranch at hform
  rw [hargs] at hform
  exact ⟨_, _, hform, e, 2, token, he, hjump, hlabel, rfl, rfl⟩

/-! ## Labels and branches agree -/

theorem toInt_distance {n place k : Nat} (hn : n ≤ 0x8000) (hplace : place ≤ n) (hk : k < n) :
    (BitVec.ofInt 32 ((place : Int) - (k + 1))).toInt = (place : Int) - (k + 1) := by
  rw [BitVec.toInt_ofInt]
  apply Int.bmod_eq_of_le <;> omega

theorem branchTarget_distance {family : Family} (hjump : family ≠ .jump) (base : Word)
    (place k : Nat) :
    branchTarget family (base + BitVec.ofNat 32 (4 * k))
      (BitVec.ofInt 32 ((place : Int) - (k + 1))) = base + BitVec.ofNat 32 (4 * place) := by
  have hwords : ∀ n : Nat, BitVec.ofNat 32 (4 * n) = BitVec.ofInt 32 (4 * n) := by
    intro n
    rw [← BitVec.ofInt_natCast]
    rfl
  rw [branchTarget, if_neg hjump, BitVec.add_assoc, BitVec.add_assoc, hwords, hwords]
  congr 1
  calc BitVec.ofInt 32 (4 * k) + (4#32 + BitVec.ofInt 32 ((place : Int) - (k + 1)) * 4#32)
      = BitVec.ofInt 32 (4 * k + (4 + ((place : Int) - (k + 1)) * 4)) := by
        rw [BitVec.ofInt_add, BitVec.ofInt_add, BitVec.ofInt_mul ((place : Int) - (k + 1))]
        rfl
    _ = BitVec.ofInt 32 (4 * place) := by
        congr 1
        omega

/-- **Branches lead to their labels.** In a scope of at most `0x8000` words, the word of a branch is
disassembled to the address at which the lines after its label begin. Each label that a branch names
is defined, in front of an instruction or on a line of its own, before the branch or after it. The
branches of a comparison are among these. -/
theorem branch_reaches_label (t : DefinitionTable) (base : Word) (cmds : List Command)
    (words : List Word) (hwords : (assemble t base cmds).words = .ok words)
    (hsize : words.length ≤ 0x8000) :
    words.length = (cmds.flatMap (produced t)).length ∧
    (∀ k c label, (cmds.flatMap (produced t))[k]? = some c → BranchesTo c label →
      (∃ pre d post, cmds = pre ++ d :: post ∧ Defines d label) ∧
      ∀ pre d post, cmds = pre ++ d :: post → Defines d label →
        ∃ w row, words[k]? = some w ∧
          (decode w (base + BitVec.ofNat 32 (4 * k))).instruction = some row ∧
          branchTarget row.family (base + BitVec.ofNat 32 (4 * k))
            (decode w (base + BitVec.ofNat 32 (4 * k))).fields.imm =
              base + BitVec.ofNat 32 (4 * (pre.flatMap (produced t)).length)) ∧
    ∀ (c : Command) b r1 r2 token, b ∈ comparingBranches → c.name = b.name →
      c.args = [r1, r2, token] →
      ∃ compare branch, instructionsOf t c = .ok [compare, branch] ∧
        BranchesTo branch (bare token) := by
  unfold assemble at hwords
  cases hexpand : Expanded.ofCommands t cmds with
  | error fault =>
    rw [hexpand] at hwords
    cases hwords
  | ok x =>
    rw [hexpand] at hwords
    have hcode : x.code = cmds.flatMap (produced t) := (foldlM_addLine hexpand).1
    rw [← hcode]
    obtain ⟨hlen, hat⟩ := words_encodeFrom hwords
    refine ⟨hlen, fun k c label hc hbranch => ?_,
      fun c b r1 r2 token hb hname hargs => instructionsOf_comparing hb hname hargs⟩
    obtain ⟨w, hw, hencode⟩ := hat k c hc
    rw [Nat.zero_add] at hencode
    obtain ⟨e, f, place, he, hjump, rfl, hfilled, hdest, hlock, hplace, himm⟩ :=
      encode_branch hbranch hencode
    obtain ⟨pre, d, post, hcmds, hdef, hcount⟩ := (lookup_ofCommands hexpand label place).1 hplace
    refine ⟨⟨pre, d, post, hcmds, hdef⟩, fun pre' d' post' hcmds' hdef' => ?_⟩
    -- every definition of the label stands at the place that was looked up
    have hcount' : place = (pre'.flatMap (produced t)).length := by
      have hplace' := (lookup_ofCommands hexpand label _).2 ⟨pre', d', post', hcmds', hdef', rfl⟩
      exact Option.some.inj (hplace.symm.trans hplace')
    have hbound : place ≤ words.length := by
      rw [hlen, hcode, hcmds', hcount', List.flatMap_append, List.length_append]
      exact Nat.le_add_right _ _
    have hk : k < words.length := (List.getElem?_eq_some_iff.1 hw).1
    have hrange : InRange e f := by
      refine ⟨hfilled, fun _ => ?_, fun h => absurd h hjump, fun _ => hdest, fun _ => hlock⟩
      rw [himm, toInt_distance hsize hbound hk]
      omega
    obtain ⟨row, -, hfam, -, hdecode⟩ :=
      decode_eq_of_inRange he hrange (base + BitVec.ofNat 32 (4 * k))
    refine ⟨e.pack f, row, hw, ?_, ?_⟩
    · rw [hdecode]
    · rw [hdecode, ← hcount', hfam, himm]
      exact branchTarget_distance hjump base place k

/-- A scope with a branch back over a loaded number and a comparing branch ahead. -/
def search : List Command :=
  ["Loop: li $v0,0x12345678", "blt $v0,$a0,done", "beq $a0,$v0,LOOP", "Done:", "jr $ra"].map
    fun line => Command.ofLine (ascii line)

set_option maxRecDepth 8000 in
theorem search_words : (assemble {} 0x100 search).words =
    .ok [0x3C021234, 0x34425678, 0x0044082A, 0x14200001, 0x1082FFFB, 0x03E00008] := by
  decide

theorem branch_reaches_label_search :
    (assemble {} 0x100 search).words =
        .ok [0x3C021234, 0x34425678, 0x0044082A, 0x14200001, 0x1082FFFB, 0x03E00008] ∧
      (∃ row, (decode 0x14200001 0x10C).instruction = some row ∧
        branchTarget row.family 0x10C (decode 0x14200001 0x10C).fields.imm = 0x114) ∧
      ∃ row, (decode 0x1082FFFB 0x110).instruction = some row ∧
        branchTarget row.family 0x110 (decode 0x1082FFFB 0x110).fields.imm = 0x100 := by
  have hbne : BranchesTo ((Command.ofLine (ascii "blt $v0,$a0,done")).withParts (ascii "BNE")
      [ascii "$at", ascii ",$zero", ascii ",done"]) (ascii "done") :=
    ⟨entry "BNE" .normal 0b000101 [.rs, .rt, .label], 2, ascii ",done", rfl, by decide, rfl,
      rfl, rfl⟩
  have hbeq : BranchesTo (Command.ofLine (ascii "beq $a0,$v0,LOOP")) (ascii "LOOP") :=
    ⟨entry "BEQ" .normal 0b000100 [.rs, .rt, .label], 2, ascii ",LOOP", rfl, by decide, rfl,
      rfl, rfl⟩
  obtain ⟨-, hall, -⟩ := branch_reaches_label {} 0x100 search _ search_words (by decide)
  refine ⟨search_words, ?_, ?_⟩
  · obtain ⟨w, row, hw, hrow⟩ := (hall 3 _ _ rfl hbne).2 (search.take 3) _ _ rfl
      ⟨ascii "DONE", by decide, rfl⟩
    obtain rfl := Option.some.inj hw
    exact ⟨row, hrow⟩
  · obtain ⟨w, row, hw, hrow⟩ := (hall 4 _ _ rfl hbeq).2 [] _ _ rfl ⟨ascii "LOOP", by decide, rfl⟩
    obtain rfl := Option.some.inj hw
    exact ⟨row, hrow⟩

end CheatScript.Assembly
