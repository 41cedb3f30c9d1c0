import CheatScript.Proofs.CodeLines

/-!
# Proofs: weights count lines

The conditions around a piece skip as many lines as the piece weighs, so its weight has to be the
number of lines of its text. Every verb has a rule of its own for that number: a constant, a number
of bytes or offsets rounded up, the newlines of a text. The rules agree with the texts because the
halves of a code line are digits and hold no newline.
-/

namespace CheatScript

open Outcome

/-! ## Lines without newlines -/

theorem Digits.newline_not_mem {n : Nat} {s : Bytes} (h : Digits n s) : Byte.newline ∉ s := by
  intro hmem
  have hdigit := h.2 _ hmem
  revert hdigit
  decide

namespace CodeLine

variable {l : CodeLine}

theorem WellFormed.allDigits (h : l.WellFormed) : l.AllDigits := ⟨⟨8, h.left⟩, ⟨8, h.right⟩⟩

theorem AllDigits.newline_not_mem (h : l.AllDigits) : Byte.newline ∉ l.text := by
  obtain ⟨⟨m, hleft⟩, ⟨n, hright⟩⟩ := h
  have hspace : Byte.newline ≠ Byte.space := by decide
  intro hmem
  rcases List.mem_append.1 hmem with hmem | hmem
  · exact hleft.newline_not_mem hmem
  · rcases List.mem_cons.1 hmem with heq | hmem
    · exact hspace heq
    · exact hright.newline_not_mem hmem

end CodeLine

/-- Whatever the counts of a code are, its lines are digits. -/
theorem Code.lines_allDigits (code : Code) : ∀ l ∈ code.lines, l.AllDigits := by
  intro l hl
  cases code with
  | pointer width base value first rest =>
    have hcode : width.code < 16 := by cases width <;> decide
    rcases List.mem_cons.1 hl with rfl | hl
    · exact ⟨⟨8, digits_typed (by decide) base⟩, ⟨8, .word _⟩⟩
    · rcases List.mem_cons.1 hl with rfl | hl
      · have hzeros : Digits 3 (ascii "000") := .of_all rfl rfl
        -- a count of five digits or more makes this half longer than eight digits
        exact ⟨⟨_, hzeros.append (.cons hcode (.fixed _ _))⟩, ⟨8, .word first⟩⟩
      · exact (offsetLines_wellFormed rest l hl).allDigits
  | fill width address value count =>
    have hone : Digits 4 (ascii "0001") := .of_all rfl rfl
    cases width <;>
    · rcases List.mem_pair.1 hl with rfl | rfl
      · exact ⟨⟨8, digits_typed (by decide) address⟩, ⟨_, Digits.append (.fixed _ _) hone⟩⟩
      · exact ⟨⟨8, .word _⟩, ⟨8, .word 0⟩⟩
  | write | copy | step | bitwise | store =>
    refine (lines_wellFormed ?_ l hl).allDigits
    trivial

/-- A text of `n` newlines that is empty or starts with one of them. -/
structure IsLines (n : Nat) (s : Bytes) : Prop where
  count : List.count Byte.newline s = n
  lead : s = [] ∨ s.head? = some Byte.newline

namespace Fragment

theorem isLines_linesText {lines : List CodeLine} (h : ∀ l ∈ lines, l.AllDigits) :
    IsLines lines.length (linesText lines) := by
  induction lines with
  | nil => exact ⟨rfl, .inl rfl⟩
  | cons l lines ih =>
    obtain ⟨hl, hlines⟩ := List.forall_mem_cons.1 h
    have hnone : List.count Byte.newline l.text = 0 := List.count_eq_zero.2 hl.newline_not_mem
    have hrest := (ih hlines).count
    refine ⟨?_, .inr rfl⟩
    calc List.count Byte.newline (linesText (l :: lines))
        = List.count Byte.newline (l.text ++ linesText lines) + 1 := List.count_cons_self
      _ = lines.length + 1 := by rw [List.count_append, hnone, hrest, Nat.zero_add]

/-- A fragment that starts on a line of its own weighs as much as it has newlines. -/
theorem isLines_text {f : Fragment} (hf : ∀ s, f ≠ .inline s) : IsLines f.weight f.text := by
  cases f with
  | codes list =>
    refine isLines_linesText fun l hl => ?_
    obtain ⟨code, -, hl⟩ := List.mem_flatMap.1 hl
    exact code.lines_allDigits l hl
  | inline s => exact absurd rfl (hf s)
  | block s => exact ⟨List.count_cons_self, .inr rfl⟩

end Fragment

/-- The text of a piece, where a condition skips `skip` lines. -/
def Piece.text (type : ConditionType) (skip : Nat) : Piece → Bytes
  | .test _ condition => (Packed.test condition skip).text type
  | .close => []
  | .output _ f => (Packed.output f).text type

theorem Piece.isLines_text {type : ConditionType} {skip : Nat} {p : Piece}
    (hp : ∀ c s, p ≠ .output c (.inline s)) : IsLines p.weight (p.text type skip) := by
  cases p with
  | test c k =>
    have hline : ∀ l ∈ [k.line type skip], l.AllDigits :=
      List.forall_mem_singleton.2 (k.line_allDigits type skip)
    exact Fragment.isLines_linesText hline
  | close => exact ⟨rfl, .inl rfl⟩
  | output c f =>
    refine Fragment.isLines_text fun s => ?_
    rintro rfl
    exact hp c s rfl

/-! ## The rules of the verbs -/

namespace Code

/-- The lines that write `n` bytes: one for every four, and one or two for the bytes left over. -/
def byteLines (n : Nat) : Nat := n / 4 + (n % 4 + 1) / 2

theorem length_lines_ofBytes (start : Word) (s : Bytes) :
    ((ofBytes start s).flatMap lines).length = byteLines s.length := by
  fun_induction ofBytes start s with
  | case1 => rfl
  | case2 => simp [lines, byteLines]
  | case3 => simp [lines, byteLines]
  | case4 => simp [lines, byteLines]
  | case5 start a b c d rest ih =>
    have hfour : (a :: b :: c :: d :: rest).length = rest.length + 4 := rfl
    rw [List.flatMap_cons, List.length_append, ih, hfour]
    simp only [lines, List.length_singleton, byteLines]
    omega

theorem length_offsetLines (offsets : List Word) :
    (offsetLines offsets).length = (offsets.length + 1) / 2 := by
  fun_induction offsetLines offsets with
  | case1 => rfl
  | case2 => simp
  | case3 a b rest ih =>
    simp only [List.length_cons, ih]
    omega

theorem length_lines_ofWords (place : Word) (words : List Word) :
    ((ofWords place words).flatMap lines).length = words.length := by
  induction words generalizing place with
  | nil => rfl
  | cons w words ih =>
    rw [ofWords, List.flatMap_cons, List.length_append, ih]
    exact Nat.add_comm 1 words.length

end Code

/-- The number of lines that a verb contributes by its rule, from the arguments of its command and
the encoding of strings. -/
def Verb.lineCount [TextEncoder] (e : TextEncoding) (args : List Bytes) : Verb → Nat
  | .setEncoding | .sendRaw | .closeIf => 0
  | .sendRawWeight => (Statement.rawText args).toOption.elim 0 fun s =>
    List.count Byte.newline s + 1
  | .write _ | .writeFloat | .bitwise _ _ | .openIf => 1
  | .writeString => (Statement.addressAndValue Argument.text args).toOption.elim 0 fun (_, s) =>
      Code.byteLines (TextEncoder.encode e (Bytes.replace Statement.stringEscapes s)).length
  | .writeBytes => (Statement.addressAndValue Argument.text args).toOption.elim 0 fun (_, s) =>
      Code.byteLines (Literal.byteList s).length
  -- two lines for the base and the first offset, then the others two in a line
  | .writePointer _ => (Argument.chain args).toOption.elim 0 fun (chain, _) =>
      2 + (chain.length - 1) / 2
  | .copyBytes | .fill _ => 2
  | .step _ width => if width = .word then 2 else 1

namespace Statement

variable {e : TextEncoding} {c : Command} {verb : Verb} {s : Statement} {code : Code}

/-- The lines that the piece of a statement counts for. -/
def weight (c : Command) (s : Statement) : Nat := (s.piece? c).elim 0 Piece.weight

/-- The text of the piece of a statement, where a condition skips `skip` lines. -/
def text (type : ConditionType) (skip : Nat) (c : Command) (s : Statement) : Bytes :=
  (s.piece? c).elim [] (Piece.text type skip)

theorem weight_single (c : Command) (code : Code) : (single code).weight c = code.lines.length := by
  simp [single, weight, piece?, Piece.weight, Fragment.weight]

theorem lines_pointerCode [TextEncoder] {value : PointerValue} {args : List Bytes}
    (h : pointerCode value args = .ok code) :
    code.lines.length = (Verb.writePointer value).lineCount e args := by
  unfold pointerCode at h
  split at h
  · cases h
  · obtain ⟨⟨chain, rest⟩, hchain, h⟩ := bind_eq_ok.1 h
    obtain ⟨number, -, h⟩ := bind_eq_ok.1 h
    obtain ⟨v, -, h⟩ := bind_eq_ok.1 h
    cases chain with
    | nil => cases h
    | cons base chain =>
      cases chain with
      | nil => cases h
      | cons first offsets =>
        obtain rfl := pure_eq_ok.1 h
        have hcount :
            (Verb.writePointer value).lineCount e args = 2 + (offsets.length + 1) / 2 := by
          simp [Verb.lineCount, hchain, Except.toOption]
        rw [hcount]
        simp only [Code.lines, List.length_cons, Code.length_offsetLines]
        omega

theorem lines_copyCode {args : List Bytes} (h : copyCode args = .ok code) :
    code.lines.length = 2 := by
  unfold copyCode at h
  split at h
  · cases h
  · obtain ⟨⟨source, rest⟩, -, h⟩ := bind_eq_ok.1 h
    obtain ⟨⟨target, rest⟩, -, h⟩ := bind_eq_ok.1 h
    obtain ⟨number, -, h⟩ := bind_eq_ok.1 h
    obtain ⟨v, -, h⟩ := bind_eq_ok.1 h
    obtain ⟨bytes, -, h⟩ := bind_eq_ok.1 h
    obtain rfl := pure_eq_ok.1 h
    rfl

theorem lines_fillCode {width : Width} {args : List Bytes} (h : fillCode width args = .ok code) :
    code.lines.length = 2 := by
  unfold fillCode at h
  split at h
  · cases h
  · obtain ⟨⟨address, rest⟩, -, h⟩ := bind_eq_ok.1 h
    obtain ⟨⟨value, rest⟩, -, h⟩ := bind_eq_ok.1 h
    obtain ⟨number, -, h⟩ := bind_eq_ok.1 h
    obtain ⟨size, -, h⟩ := bind_eq_ok.1 h
    obtain ⟨bytes, -, h⟩ := bind_eq_ok.1 h
    obtain ⟨count, -, h⟩ := bind_eq_ok.1 h
    obtain rfl := pure_eq_ok.1 h
    cases width <;> rfl

/-- What a verb contributes weighs as many lines as the rule of the verb says. -/
theorem weight_ofVerb [TextEncoder] (h : ofVerb e c verb = .ok s) :
    s.weight c = verb.lineCount e c.args := by
  cases verb with
  | setEncoding =>
    obtain ⟨encoding, -, h⟩ := bind_eq_ok.1 h
    obtain rfl := pure_eq_ok.1 h
    rfl
  | sendRaw =>
    obtain ⟨raw, -, h⟩ := bind_eq_ok.1 h
    obtain rfl := pure_eq_ok.1 h
    rfl
  | sendRawWeight =>
    obtain ⟨raw, hraw, h⟩ := bind_eq_ok.1 h
    obtain rfl := pure_eq_ok.1 h
    simp [Verb.lineCount, hraw, Except.toOption, weight, piece?, Piece.weight, Fragment.weight]
  | write width =>
    obtain ⟨⟨address, value⟩, -, h⟩ := bind_eq_ok.1 h
    obtain rfl := pure_eq_ok.1 h
    exact weight_single c _
  | writeFloat =>
    obtain ⟨⟨address, value⟩, -, h⟩ := bind_eq_ok.1 h
    obtain rfl := pure_eq_ok.1 h
    exact weight_single c _
  | writeString =>
    obtain ⟨codes, hcodes, h⟩ := bind_eq_ok.1 h
    obtain rfl := pure_eq_ok.1 h
    obtain ⟨⟨address, string⟩, hargs, hcodes⟩ := bind_eq_ok.1 hcodes
    obtain rfl := pure_eq_ok.1 hcodes
    simp only [Verb.lineCount, hargs, Except.toOption, Option.elim_some]
    exact Code.length_lines_ofBytes _ _
  | writeBytes =>
    obtain ⟨codes, hcodes, h⟩ := bind_eq_ok.1 h
    obtain rfl := pure_eq_ok.1 h
    obtain ⟨⟨address, list⟩, hargs, hcodes⟩ := bind_eq_ok.1 hcodes
    simp only at hcodes
    split at hcodes
    · obtain rfl := pure_eq_ok.1 hcodes
      simp only [Verb.lineCount, hargs, Except.toOption, Option.elim_some]
      exact Code.length_lines_ofBytes _ _
    · cases hcodes
  | writePointer value =>
    obtain ⟨code, hcode, h⟩ := bind_eq_ok.1 h
    obtain rfl := pure_eq_ok.1 h
    rw [weight_single]
    exact lines_pointerCode hcode
  | copyBytes =>
    obtain ⟨code, hcode, h⟩ := bind_eq_ok.1 h
    obtain rfl := pure_eq_ok.1 h
    rw [weight_single]
    exact lines_copyCode hcode
  | fill width =>
    obtain ⟨code, hcode, h⟩ := bind_eq_ok.1 h
    obtain rfl := pure_eq_ok.1 h
    rw [weight_single]
    exact lines_fillCode hcode
  | step direction width =>
    obtain ⟨⟨address, value⟩, -, h⟩ := bind_eq_ok.1 h
    obtain rfl := pure_eq_ok.1 h
    rw [weight_single]
    cases width <;> rfl
  | bitwise operation width =>
    obtain ⟨⟨address, value⟩, -, h⟩ := bind_eq_ok.1 h
    obtain rfl := pure_eq_ok.1 h
    exact weight_single c _
  | openIf =>
    obtain ⟨condition, -, h⟩ := bind_eq_ok.1 h
    obtain rfl := pure_eq_ok.1 h
    rfl
  | closeIf =>
    obtain rfl := pure_eq_ok.1 h
    rfl

/-- A command other than one that copies a text in place starts on a line of its own. -/
theorem piece_ne_inline [TextEncoder] (hraw : Verb.ofName? c.name ≠ some .sendRaw)
    (h : ofCommand e c = .ok s) : ∀ p ∈ s.piece? c, ∀ d raw, p ≠ .output d (.inline raw) := by
  intro p hp d raw heq
  cases s with
  | emit f =>
    obtain rfl := Option.some.inj hp
    obtain ⟨-, rfl⟩ := Piece.output.inj heq
    obtain ⟨verb, hverb, hof⟩ := ofCommand_eq_ok h
    rcases ofVerb_emit hof with ⟨rfl, -⟩ | ⟨-, block, hblock⟩ | ⟨list, hlist, -⟩
    · exact hraw hverb
    · cases hblock
    · cases hlist
  | encoding e' => cases hp
  | openIf condition =>
    obtain rfl := Option.some.inj hp
    cases heq
  | closeIf =>
    obtain rfl := Option.some.inj hp
    cases heq

end Statement

/-! ## Weights -/

/-- **A weight is a number of lines.** What a command outside asm scopes contributes, unless it
copies a text in place, weighs as many lines as the rule of its verb says, and so many newlines has
its text, which is empty or starts with one. An asm scope weighs as many lines as it has words. So
the weight that packing counts with is the number of lines for every piece of a script. -/
theorem weight_counts_lines [TextEncoder] (t : DefinitionTable) (type : ConditionType)
    (skip : Nat) : (∀ e c verb s, Verb.ofName? c.name = some verb → verb ≠ .sendRaw →
      Statement.ofCommand e c = .ok s →
        s.weight c = verb.lineCount e c.args ∧ IsLines (s.weight c) (s.text type skip c)) ∧
    (∀ scope c codes, (AsmScope.close t scope c).result = .ok codes →
      ∃ words, (Assembly.assemble t scope.place scope.lines).words = .ok words ∧
        (Fragment.codes codes).weight = words.length ∧
        IsLines words.length (Fragment.codes codes).text) ∧
    ∀ e scope cmds pieces, (∀ c ∈ cmds, Verb.ofName? c.name ≠ some .sendRaw) →
      (renderFrom t e scope cmds).result = .ok pieces →
        ∀ p ∈ pieces, IsLines p.weight (p.text type skip) := by
  refine ⟨?_, ?_, ?_⟩
  · intro e c verb s hverb hraw h
    have hname : Verb.ofName? c.name ≠ some .sendRaw := by
      rw [hverb]
      exact fun heq => hraw (Option.some.inj heq)
    obtain ⟨other, hother, hof⟩ := Statement.ofCommand_eq_ok h
    obtain rfl := Option.some.inj (hverb.symm.trans hother)
    refine ⟨Statement.weight_ofVerb hof, ?_⟩
    have hpiece := Statement.piece_ne_inline hname h
    unfold Statement.weight Statement.text
    cases hp : s.piece? c with
    | none => exact ⟨rfl, .inl rfl⟩
    | some p => exact Piece.isLines_text (hpiece p hp)
  · intro scope c codes h
    obtain ⟨words, hwords, rfl⟩ := AsmScope.close_eq_ok h
    have hlength := Code.length_lines_ofWords scope.place words
    refine ⟨words, hwords, hlength, ?_⟩
    rw [← hlength]
    exact Fragment.isLines_text (f := .codes _) fun s => by rintro ⟨⟩
  · intro e scope cmds pieces hcmds h
    refine renderFrom_pieces ?_ ?_ h
    · intro c hc e s hof p hp
      exact Piece.isLines_text (Statement.piece_ne_inline (hcmds c hc) hof p hp)
    · intro c _ s codes _
      refine Piece.isLines_text fun d raw heq => ?_
      cases (Piece.output.inj heq).2

/-- A string of three characters, stored in six bytes as UTF-16. -/
def sampleString : Command := Command.ofLine (ascii "WriteString 0x100 \"a\\nb\"")

def sampleStatement : Statement :=
  .emit (.codes [.write .word 0x100 0x000A0061, .write .half 0x104 0x62])

/-- A scope of one line that stands for two instructions. -/
def sampleScope : AsmScope where
  start := Command.ofLine (ascii "ASM_START 0x100000")
  place := 0x20100000#32
  lines := [Command.ofLine (ascii "li $v0,0x12345678")]

/-- A text with a newline in it. -/
def sampleText : Command := Command.ofLine (ascii "SRW \"1\\n2\"")

/-- A chain of three offsets. -/
def sampleChain : Command := Command.ofLine (ascii "WP32 0x100,4,8,C 7")

def samplePieces : List Piece :=
  [.output sampleText (.block (ascii "1\n2")),
    .output sampleChain (.codes [.pointer .word 0x100 7 4 [8, 0xC]])]

set_option maxRecDepth 4000 in
theorem sampleScope_words : (Assembly.assemble {} sampleScope.place sampleScope.lines).words =
    .ok [0x3C021234, 0x34425678] := by
  decide

set_option maxRecDepth 4000 in
theorem samplePieces_rendered :
    (renderFrom {} .utf8 none [sampleText, sampleChain]).result = .ok samplePieces := by
  decide

theorem weight_counts_lines_sample :
    (Statement.ofCommand .utf16 sampleString = .ok sampleStatement ∧
      sampleStatement.weight sampleString = 2 ∧
      IsLines 2 (sampleStatement.text .e 0 sampleString)) ∧
    (∃ codes, (sampleScope.close {} (Command.ofLine (ascii "ASM_END"))).result = .ok codes ∧
      ∃ words, (Assembly.assemble {} sampleScope.place sampleScope.lines).words = .ok words ∧
        (Fragment.codes codes).weight = words.length ∧
        IsLines words.length (Fragment.codes codes).text) ∧
    (renderFrom {} .utf8 none [sampleText, sampleChain]).result = .ok samplePieces ∧
      samplePieces.map Piece.weight = [2, 3] ∧
      ∀ p ∈ samplePieces, IsLines p.weight (p.text .e 0) := by
  obtain ⟨hstatement, hscope, hrun⟩ := weight_counts_lines {} .e 0
  have hclose : (sampleScope.close {} (Command.ofLine (ascii "ASM_END"))).result =
      .ok (Code.ofWords sampleScope.place [0x3C021234, 0x34425678]) := by
    unfold AsmScope.close
    refine Stage.bind_result_eq_ok.2 ⟨_, sampleScope_words, rfl⟩
  have hstring : Statement.ofCommand .utf16 sampleString = .ok sampleStatement := rfl
  refine ⟨⟨hstring, rfl, ?_⟩, ⟨_, hclose, hscope _ _ _ hclose⟩, samplePieces_rendered, rfl, ?_⟩
  · exact (hstatement .utf16 sampleString .writeString _ rfl (by decide) hstring).2
  · exact hrun .utf8 none _ _ (by decide) samplePieces_rendered

end CheatScript
