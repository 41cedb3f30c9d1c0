import CheatScript.Proofs.CompilationOutcome
import CheatScript.Proofs.CompiledOutput
import CheatScript.Proofs.LineCounts

/-!
# Proofs: the two ways to write conditions say the same

The line of a condition is `Daaaaaaa nnctvvvv` or `Etnnvvvv caaaaaaa`. Both are the same parts in
another order, so a reader that knows the order gets the parts back. How conditions are written
plays no role before the codes are packed. A script without copied texts is therefore refused in
both forms alike, or compiled in both to the same lines up to the order of the parts of its
conditions.
-/

namespace CheatScript

open Outcome

/-! ## Parts of a line -/

/-- A part of the line of a condition. -/
inductive LinePart
  /-- The digit that tells the type of the code. -/
  | kind
  /-- The address, `aaaaaaa`. -/
  | address
  /-- The blank between the halves. -/
  | blank
  /-- The number of lines to skip, `nn`. -/
  | skip
  /-- The comparison, `c`. -/
  | comparison
  /-- The width, `t`. -/
  | width
  /-- The number compared with, `vvvv`. -/
  | value
  deriving DecidableEq

namespace LinePart

/-- The number of bytes of a part. -/
def size : LinePart → Nat
  | .kind | .blank | .comparison | .width => 1
  | .skip => 2
  | .value => 4
  | .address => 7

/-- The bytes of a part in a text with the parts of a layout. -/
def cut? (part : LinePart) : (layout : List LinePart) → Bytes → Option Bytes
  | [], _ => none
  | p :: layout, s => if p = part then some (s.take p.size) else part.cut? layout (s.drop p.size)

theorem cut?_flatMap {chunk : LinePart → Bytes} {part : LinePart} {layout : List LinePart}
    (hsize : ∀ p, (chunk p).length = p.size) (h : part ∈ layout) :
    part.cut? layout (layout.flatMap chunk) = some (chunk part) := by
  induction layout with
  | nil => cases h
  | cons p layout ih =>
    rw [List.flatMap_cons, cut?, ← hsize p, List.take_left, List.drop_left]
    by_cases hp : p = part
    · rw [if_pos hp, hp]
    · rw [if_neg hp]
      rcases List.mem_cons.1 h with rfl | h
      · exact absurd rfl hp
      · exact ih h

end LinePart

namespace ConditionType

/-- The parts of a line in order. -/
def layout : ConditionType → List LinePart
  | .d => [.kind, .address, .blank, .skip, .comparison, .width, .value]
  | .e => [.kind, .width, .skip, .value, .blank, .comparison, .address]

/-- The number of the type of the code. -/
def kind : ConditionType → Nat
  | .d => 0xD
  | .e => 0xE

theorem mem_layout (type : ConditionType) (part : LinePart) : part ∈ type.layout := by
  cases type <;> cases part <;> decide

end ConditionType

/-! ## Reading a line -/

/-- What the line of a condition says. -/
structure ConditionFields where
  /-- The address. -/
  address : Nat
  /-- How the value there is compared. -/
  comparison : Comparison
  /-- How many bits are compared. -/
  width : Narrow
  /-- The number it is compared with. -/
  value : Nat
  /-- The number of lines to skip. -/
  skip : Nat
  deriving DecidableEq

/-- The comparison with a number. -/
def Comparison.ofCode? (n : Nat) : Option Comparison := (operators.map Prod.snd)[n]?

/-- The number of a narrow width in a condition. -/
def Narrow.code : Narrow → Nat
  | .byte => 1
  | .half => 0

/-- The width with a number. -/
def Narrow.ofCode? : Nat → Option Narrow
  | 0 => some .half
  | 1 => some .byte
  | _ => none

namespace ConditionType

/-- The number in a part of a line. -/
def number? (type : ConditionType) (s : Bytes) (part : LinePart) : Option Nat := do
  let digits ← part.cut? type.layout s
  let w ← (Numeral.hexWord digits).toOption
  return w.toNat

/-- Reads the line of a condition. -/
def read? (type : ConditionType) (s : Bytes) : Option ConditionFields := do
  guard (s.length = 17 ∧ LinePart.blank.cut? type.layout s = some [Byte.space])
  guard (type.number? s .kind = some type.kind)
  let address ← type.number? s .address
  let comparison ← (type.number? s .comparison).bind Comparison.ofCode?
  let width ← (type.number? s .width).bind Narrow.ofCode?
  let value ← type.number? s .value
  let skip ← type.number? s .skip
  return ⟨address, comparison, width, value, skip⟩

end ConditionType

namespace Condition

/-- What the line of a condition can say of it: addresses have seven digits. -/
def fields (k : Condition) (skip : Nat) : ConditionFields :=
  ⟨k.address.toNat % 16 ^ 7, k.comparison, k.width, (k.width.width.clip k.value).toNat, skip⟩

/-- The number that is written in a part. -/
def number (type : ConditionType) (k : Condition) (skip : Nat) : LinePart → Nat
  | .kind => type.kind
  | .address => k.address.toNat
  | .blank => 0
  | .skip => skip
  | .comparison => k.comparison.code
  | .width => k.width.code
  | .value => (k.width.width.clip k.value).toNat

/-- The text that is written in a part. -/
def chunk (type : ConditionType) (k : Condition) (skip : Nat) (part : LinePart) : Bytes :=
  if part = .blank then [Byte.space] else Hex.fixed part.size (k.number type skip part)

theorem length_chunk (type : ConditionType) (k : Condition) (skip : Nat) (part : LinePart) :
    (k.chunk type skip part).length = part.size := by
  unfold chunk
  split
  · next h => rw [h]; rfl
  · exact Hex.length_fixed _ _

theorem clip_lt (k : Condition) : (k.width.width.clip k.value).toNat < 16 ^ 4 := by
  cases k.width with
  | byte => exact Nat.lt_of_le_of_lt Nat.and_le_right (by decide)
  | half => exact Nat.lt_of_le_of_lt Nat.and_le_right (by decide)

/-- A line is its parts in the order of the layout. -/
theorem line_text (type : ConditionType) (k : Condition) {skip : Nat} (h : skip ≤ 255) :
    (k.line type skip).text = type.layout.flatMap (k.chunk type skip) := by
  have hskip : Hex.padded 2 skip = Hex.fixed 2 skip := Hex.padded_eq_fixed (by decide) (by omega)
  have hcomparison : k.comparison.code < 16 := by cases k.comparison <;> decide
  have hwidth : Hex.fixed 1 k.width.code = [widthDigit k.width] := by cases k.width <;> rfl
  cases type <;>
    simp [line, CodeLine.text, hskip, ConditionType.layout, chunk, LinePart.size, number, hwidth,
      Hex.fixed_one hcomparison, Hex.fixed_one, ConditionType.kind, valueDigits]

theorem number?_line (type : ConditionType) (k : Condition) {skip : Nat} (h : skip ≤ 255)
    {part : LinePart} (hpart : part ≠ .blank) :
    type.number? (k.line type skip).text part =
      some (k.number type skip part % 16 ^ part.size) := by
  have hcut : part.cut? type.layout (k.line type skip).text =
      some (Hex.fixed part.size (k.number type skip part)) := by
    rw [line_text type k h, LinePart.cut?_flatMap (k.length_chunk type skip) (type.mem_layout part),
      chunk, if_neg hpart]
  have hsize : 0 < part.size ∧ part.size ≤ 7 := by cases part <;> decide
  have hpow : 16 ^ part.size ≤ 16 ^ 7 := Nat.pow_le_pow_right (by decide) hsize.2
  have hlt : k.number type skip part % 16 ^ part.size < 16 ^ part.size :=
    Nat.mod_lt _ (Nat.pow_pos (by decide))
  have hread := Hex.hexWord_fixed (k.number type skip part) hsize.1 (by omega)
  have hvalue : (BitVec.ofNat 32 (k.number type skip part % 16 ^ part.size)).toNat =
      k.number type skip part % 16 ^ part.size := by
    rw [BitVec.toNat_ofNat]
    exact Nat.mod_eq_of_lt (by omega)
  simp only [ConditionType.number?, hcut, hread, Except.toOption, Option.bind_eq_bind,
    Option.bind_some, hvalue, Option.pure_def]

/-- **Either line is read back.** In each of the two types, the line of a condition says the same of
it. -/
theorem read?_line (type : ConditionType) (k : Condition) {skip : Nat} (h : skip ≤ 255) :
    type.read? (k.line type skip).text = some (k.fields skip) := by
  have hwell := k.line_wellFormed type h
  have hlength : (k.line type skip).text.length = 17 := by
    simp [CodeLine.text, hwell.left.1, hwell.right.1]
  have hblank : LinePart.blank.cut? type.layout (k.line type skip).text = some [Byte.space] := by
    rw [line_text type k h, LinePart.cut?_flatMap (k.length_chunk type skip) (type.mem_layout _)]
    rfl
  have hkind : type.number? (k.line type skip).text .kind = some type.kind := by
    rw [number?_line type k h (by decide)]
    cases type <;> rfl
  have haddress : type.number? (k.line type skip).text .address = some (k.address.toNat % 16 ^ 7) :=
    number?_line type k h (by decide)
  have hcomparison : (type.number? (k.line type skip).text .comparison).bind Comparison.ofCode? =
      some k.comparison := by
    rw [number?_line type k h (by decide), number]
    cases k.comparison <;> rfl
  have hwidth : (type.number? (k.line type skip).text .width).bind Narrow.ofCode? =
      some k.width := by
    rw [number?_line type k h (by decide), number]
    cases k.width <;> rfl
  have hvalue : type.number? (k.line type skip).text .value =
      some (k.width.width.clip k.value).toNat := by
    rw [number?_line type k h (by decide), number, Option.some.injEq]
    exact Nat.mod_eq_of_lt k.clip_lt
  have hskip : type.number? (k.line type skip).text .skip = some skip := by
    rw [number?_line type k h (by decide), number, Option.some.injEq]
    exact Nat.mod_eq_of_lt (by simp only [LinePart.size]; omega)
  simp [ConditionType.read?, hlength, hblank, hkind, haddress, hcomparison, hwidth, hvalue, hskip,
    fields]

end Condition

/-! ## Compilation in both types -/

/-- Whether a line says the same in both types: it has no condition and is the same text, or its two
texts are read as the same condition. -/
def DeviceLine.Agrees (row : DeviceLine) : Prop :=
  (∃ s, row = .code s ∧ row.text .d = s ∧ row.text .e = s) ∨
    ∃ k skip, row = .test k skip ∧ ConditionType.d.read? (row.text .d) = some (k.fields skip) ∧
      ConditionType.e.read? (row.text .e) = some (k.fields skip)

namespace Compile

variable {files : FileTree} {cmds : List Command} {codes : List Packed}

theorem packed_nil [TextEncoder] (files : FileTree) : (packed files []).result = .ok [] := by
  have hinclude : Include.expandWithin files files.files.length [] false = pure ([], false) := by
    cases files.files.length <;> rfl
  rw [packed, flatten, Include.expand, hinclude]
  rfl

/-- Compilation packs codes that do not depend on the form, and writes them in it. -/
theorem lines_result [TextEncoder] (files : FileTree) (form : OutputForm) (path : Bytes)
    (source : List Bytes) : (lines files form path source).result =
      (packed files (Source.commands path (Source.cleanUp source))).result.map (text form) := by
  unfold lines
  cases Source.commands path (Source.cleanUp source) with
  | nil =>
    rw [packed_nil]
    obtain ⟨type, patches⟩ := form
    cases patches <;> rfl
  | cons c cmds =>
    simp only [Stage.bind_result]
    cases (packed files (c :: cmds)).result <;> rfl

/-- Packed codes of a script that copies no text are codes and conditions that skip at most 255
lines. -/
theorem packed_codes [TextEncoder]
    (hfiles : ∀ path content, files.read path = .ok content →
      ∀ c ∈ Include.commandsOf path content, c.name ∉ rawNames)
    (hcmds : ∀ c ∈ cmds, c.name ∉ rawNames) (h : (packed files cmds).result = .ok codes) :
    (∀ f, .output f ∈ codes → ∃ list, f = .codes list) ∧
      ∀ k skip, .test k skip ∈ codes → skip ≤ 255 := by
  obtain ⟨⟨t, flat⟩, hflatten, h⟩ := Stage.bind_result_eq_ok.1 h
  obtain ⟨pieces, hrender, hpack⟩ := Stage.bind_result_eq_ok.1 h
  have hnames : ∀ c ∈ flat, c.name ∉ rawNames :=
    flatten_names (P := fun name => name ∉ rawNames) hfiles hcmds hflatten
  have houtput : ∀ c f, .output c f ∈ pieces → ∃ list, f = .codes list := by
    refine renderFrom_outputs ?_ (fun _ _ => ⟨_, rfl⟩) hrender
    intro c hc e f hof
    obtain ⟨list, hf, -⟩ := Statement.ofCommand_codes (hnames c hc) hof
    exact ⟨list, hf⟩
  refine ⟨fun f hf => ?_, fun k skip htest => Scope.skip_le_of_pack hpack htest⟩
  obtain ⟨c, hc⟩ := Scope.mem_output_of_pack hpack hf
  exact houtput c f hc

/-- A line that is no condition is a line of a code. -/
theorem code_of_mem_allLines {s : Bytes}
    (houtput : ∀ f, .output f ∈ codes → ∃ list, f = .codes list)
    (h : .code s ∈ Packed.allLines codes) : ∃ code : Code, ∃ l ∈ code.lines, s = l.text := by
  obtain ⟨p, hp, hline⟩ := List.mem_flatMap.1 h
  cases p with
  | test k skip => cases List.mem_singleton.1 hline
  | output f =>
    obtain ⟨list, rfl⟩ := houtput f hp
    obtain ⟨s', hs', heq⟩ := List.mem_map.1 hline
    obtain rfl := DeviceLine.code.inj heq
    obtain ⟨l, hl, rfl⟩ := List.mem_map.1 hs'
    obtain ⟨code, -, hl⟩ := List.mem_flatMap.1 hl
    exact ⟨code, l, hl, rfl⟩

theorem test_mem_of_allLines {k : Condition} {skip : Nat}
    (h : .test k skip ∈ Packed.allLines codes) : .test k skip ∈ codes := by
  obtain ⟨p, hp, hline⟩ := List.mem_flatMap.1 h
  cases p with
  | test k' skip' =>
    obtain ⟨rfl, rfl⟩ := DeviceLine.test.inj (List.mem_singleton.1 hline)
    exact hp
  | output f =>
    obtain ⟨s, -, heq⟩ := List.mem_map.1 hline
    cases heq

/-- The rows of packed codes of a script that copies no text are the lines of its text, and they say
the same in both types. -/
theorem rows_agree (houtput : ∀ f, .output f ∈ codes → ∃ list, f = .codes list)
    (hskip : ∀ k skip, .test k skip ∈ codes → skip ≤ 255) :
    (∀ type, joinTexts (codes.map (Packed.text type)) =
      Bytes.join [Byte.newline] ((Packed.allLines codes).map (DeviceLine.text type))) ∧
    ∀ row ∈ Packed.allLines codes, (∀ type, Byte.newline ∉ row.text type) ∧ row.Agrees := by
  constructor
  · intro type
    refine Scope.joinTexts_allLines type fun s hs => ?_
    obtain ⟨list, hlist⟩ := houtput _ hs
    cases hlist
  · intro row hrow
    cases row with
    | code s =>
      obtain ⟨code, l, hl, rfl⟩ := code_of_mem_allLines houtput hrow
      refine ⟨fun type => ?_, .inl ⟨_, rfl, rfl, rfl⟩⟩
      exact (code.lines_allDigits l hl).newline_not_mem
    | test k skip =>
      have hle := hskip k skip (test_mem_of_allLines hrow)
      refine ⟨fun type => ?_, .inr ⟨k, skip, rfl, k.read?_line .d hle, k.read?_line .e hle⟩⟩
      exact (k.line_allDigits type skip).newline_not_mem

/-- **Both types of conditions compile to the same program.** Let neither a script nor the files it
can read copy a text into the codes, and let at most 255 scopes be open at once. Conditions are
written in their type from the start, with `nn` in place of the lines to skip; their scopes are
nested and cut as texts, and then every `nn` is filled in. One of three things happens.
* The calls of the script bring in calls for ever, and compiling comes to nothing in any form.
* Compiling comes to a failure: in both types and every form the same one at the same command.
* Compiling comes in both types to lines that correspond one by one. A line that is no condition is
  the same in both, and the two lines of a condition have the same address, comparison, width and
  number and skip the same number of lines. `lines` gives what compiling comes to in the last case
  and refuses the script in the others: because a call is too deep, or else for the same reason at
  the same command. -/
theorem conditionTypes_agree [TextEncoder] (files : FileTree) (path : Bytes) (source : List Bytes)
    (hscript : ∀ c ∈ Source.commands path (Source.cleanUp source), c.name ∉ rawNames)
    (hfiles : ∀ path content, files.read path = .ok content →
      ∀ c ∈ Include.commandsOf path content, c.name ∉ rawNames)
    (hopen : FewOpen files (Source.commands path (Source.cleanUp source))) :
    (EndlessCalls files (Source.commands path (Source.cleanUp source)) ∧
      (∀ form r, ¬ Comes files form path source r) ∧
      ∃ refusal, (∀ form, (lines files form path source).result = .error refusal) ∧
        Call.TooDeep refusal) ∨
    (∃ failure, (∀ form r, Comes files form path source r ↔ r = .error failure) ∧
      ∃ refusal, (∀ form, (lines files form path source).result = .error refusal) ∧
        (Call.SameFailure failure refusal ∨ Call.TooDeep refusal)) ∨
    ∃ rows : List DeviceLine,
      (∀ type r, Comes files ⟨type, false⟩ path source r ↔
        r = .ok (Bytes.join [Byte.newline] (rows.map (DeviceLine.text type)))) ∧
      (∀ type r, Comes files ⟨type, true⟩ path source r ↔
        r = .ok (Patch.ofCodes (Bytes.join [Byte.newline] (rows.map (DeviceLine.text type))))) ∧
      (∀ form, Comes files form path source (lines files form path source).result) ∧
      (∃ codes, (packed files (Source.commands path (Source.cleanUp source))).result = .ok codes ∧
        rows = Packed.allLines codes) ∧
      ∀ row ∈ rows, (∀ type, Byte.newline ∉ row.text type) ∧ row.Agrees := by
  have hrefused {refusal : Failure}
      (h : (packed files (Source.commands path (Source.cleanUp source))).result = .error refusal)
      (form : OutputForm) : (lines files form path source).result = .error refusal := by
    rw [lines_result, h]
    rfl
  rcases codeComes_cases hopen with
    ⟨hendless, hnone, refusal, hpacked, hdeep⟩ | ⟨failure, hcomes, refusal, hpacked, hsame⟩ |
    ⟨codes, hcodes, hcomes⟩
  · exact .inl ⟨hendless, hnone, refusal, hrefused hpacked, hdeep⟩
  · exact .inr (.inl ⟨failure, hcomes, refusal, hrefused hpacked, hsame⟩)
  · obtain ⟨houtput, hskip⟩ := packed_codes hfiles hscript hcodes
    obtain ⟨hjoin, hrows⟩ := rows_agree houtput hskip
    refine .inr (.inr ⟨Packed.allLines codes, fun type r => ?_, fun type r => ?_, fun form => ?_,
      ⟨codes, hcodes, rfl⟩, hrows⟩)
    · rw [← hjoin type]
      exact hcomes ⟨type, false⟩ r
    · rw [← hjoin type]
      exact hcomes ⟨type, true⟩ r
    · rw [lines_result, hcodes]
      exact (hcomes form _).2 rfl

/-- A script with two clauses. -/
def clauseLines : List Bytes :=
  ["Include \"lives.txt\"", "If 0x2000 =: 5 && 0x12345678 ~&. 0x1FF", "Write32 0x20 9",
    "EndIf"].map ascii

set_option maxRecDepth 8000 in
theorem fewOpen_clauses :
    FewOpen sampleFiles (Source.commands (ascii "main.txt") (Source.cleanUp clauseLines)) :=
  fewOpen_of_length (n := 6) rfl (by decide)

set_option maxRecDepth 8000 in
theorem conditionTypes_agree_clauses :
    FewOpen sampleFiles (Source.commands (ascii "main.txt") (Source.cleanUp clauseLines)) ∧
    (∀ r, Comes sampleFiles ⟨.d, false⟩ (ascii "main.txt") clauseLines r ↔ r = .ok (ascii
      "00000010 000000FF\nD0002000 02000005\nD2345678 014100FF\n20000020 00000009")) ∧
    (∀ r, Comes sampleFiles ⟨.e, false⟩ (ascii "main.txt") clauseLines r ↔ r = .ok (ascii
      "00000010 000000FF\nE0020005 00002000\nE10100FF 42345678\n20000020 00000009")) := by
  have hd : (lines sampleFiles ⟨.d, false⟩ (ascii "main.txt") clauseLines).result = .ok (ascii
      "00000010 000000FF\nD0002000 02000005\nD2345678 014100FF\n20000020 00000009") := rfl
  have he : (lines sampleFiles ⟨.e, false⟩ (ascii "main.txt") clauseLines).result = .ok (ascii
      "00000010 000000FF\nE0020005 00002000\nE10100FF 42345678\n20000020 00000009") := rfl
  refine ⟨fewOpen_clauses, ?_⟩
  rcases conditionTypes_agree sampleFiles _ clauseLines
      (by decide) sampleFiles_names fewOpen_clauses with
    ⟨-, -, refusal, hrefused, -⟩ | ⟨-, -, refusal, hrefused, -⟩ | ⟨rows, hcomes, -, hlines, -⟩
  · cases hd.symm.trans (hrefused ⟨.d, false⟩)
  · cases hd.symm.trans (hrefused ⟨.d, false⟩)
  · constructor
    · intro r
      rw [hcomes .d r, ← (hcomes .d _).1 (hlines ⟨.d, false⟩), hd]
    · intro r
      rw [hcomes .e r, ← (hcomes .e _).1 (hlines ⟨.e, false⟩), he]

end Compile

end CheatScript
