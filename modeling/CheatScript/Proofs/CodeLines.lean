import CheatScript.Proofs.Numerals
import CheatScript.Proofs.ScopeMeaning

/-!
# Proofs: the form of code lines

A code line is two halves of eight digits in upper case. Every code is written in such lines as long
as its count has at most four digits, and so is every condition that skips at most 255 lines. What
the statements of a script contribute is codes of this kind, unless a statement copies a text.
-/

namespace CheatScript

/-! ## Digits -/

theorem Hex.isUpperHex_digit : ∀ d < 16, Byte.isUpperHex (Hex.digit d) = true := by decide

/-- A text of `n` hexadecimal digits in upper case. -/
def Digits (n : Nat) (s : Bytes) : Prop := s.length = n ∧ ∀ c ∈ s, Byte.isUpperHex c = true

namespace Digits

variable {m n : Nat} {s t : Bytes}

theorem of_all (hlen : s.length = n) (h : s.all Byte.isUpperHex = true) : Digits n s :=
  ⟨hlen, List.all_eq_true.1 h⟩

theorem append (hs : Digits m s) (ht : Digits n t) : Digits (m + n) (s ++ t) := by
  refine ⟨by rw [List.length_append, hs.1, ht.1], fun c hc => ?_⟩
  rcases List.mem_append.1 hc with hc | hc
  · exact hs.2 c hc
  · exact ht.2 c hc

theorem cons {d : Nat} (hd : d < 16) (hs : Digits n s) : Digits (n + 1) (Hex.digit d :: s) := by
  refine ⟨by rw [List.length_cons, hs.1], fun c hc => ?_⟩
  rcases List.mem_cons.1 hc with rfl | hc
  · exact Hex.isUpperHex_digit d hd
  · exact hs.2 c hc

theorem fixed (width n : Nat) : Digits width (Hex.fixed width n) := by
  refine ⟨Hex.length_fixed width n, fun c hc => ?_⟩
  obtain ⟨d, hd, rfl⟩ := Hex.mem_fixed hc
  exact Hex.isUpperHex_digit d hd

theorem word (w : Word) : Digits 8 (Hex.word w) := fixed 8 w.toNat

theorem padded {width n : Nat} (hpos : 0 < width) (h : n < 2 ^ (4 * width)) :
    Digits width (Hex.padded width n) := by
  rw [Hex.padded_eq_fixed hpos h]
  exact fixed width n

end Digits

/-- A code line of the form `AAAAAAAA VVVVVVVV`. -/
structure CodeLine.WellFormed (l : CodeLine) : Prop where
  left : Digits 8 l.left
  right : Digits 8 l.right

/-- A line both halves of which are digits, in any number. -/
def CodeLine.AllDigits (l : CodeLine) : Prop := (∃ m, Digits m l.left) ∧ ∃ n, Digits n l.right

/-! ## Codes -/

namespace Code

/-- Whether the counts of a code have at most four digits. -/
def Fits : Code → Prop
  | .pointer _ _ _ _ rest => rest.length + 1 ≤ 0xFFFF
  | .fill _ _ _ count => count ≤ 0xFFFF
  | _ => True

theorem digits_typed {type : Nat} (h : type < 16) (address : Word) :
    Digits 8 (typed type address) :=
  Digits.cons h (Digits.fixed 7 address.toNat)

theorem offsetLines_wellFormed (offsets : List Word) : ∀ l ∈ offsetLines offsets, l.WellFormed := by
  fun_induction offsetLines offsets with
  | case1 => simp
  | case2 a =>
    intro l hl
    obtain rfl := List.mem_singleton.1 hl
    exact ⟨.word a, .word 0⟩
  | case3 a b rest ih =>
    intro l hl
    rcases List.mem_cons.1 hl with rfl | hl
    · exact ⟨.word a, .word b⟩
    · exact ih l hl

theorem fillLines_wellFormed (width : Width) (address value : Word) {count : Nat}
    (h : count ≤ 0xFFFF) : ∀ l ∈ fillLines width address value count, l.WellFormed := by
  have hsize : Digits 8 (Hex.padded 4 count ++ ascii "0001") :=
    (Digits.padded (by decide) (by omega)).append (.of_all rfl rfl)
  intro l hl
  cases width <;>
  · rcases List.mem_pair.1 hl with rfl | rfl
    · exact ⟨digits_typed (by decide) address, hsize⟩
    · exact ⟨.word _, .word 0⟩

theorem stepLines_wellFormed (direction : Direction) (width : Width) (address value : Word) :
    ∀ l ∈ stepLines direction width address value, l.WellFormed := by
  intro l hl
  cases width with
  | word =>
    rcases List.mem_pair.1 hl with rfl | rfl
    · exact ⟨.word _, digits_typed (by decide) address⟩
    · exact ⟨.word _, .word 0⟩
  | _ =>
    obtain rfl := List.mem_singleton.1 hl
    exact ⟨.word _, digits_typed (by decide) address⟩

theorem lines_wellFormed {code : Code} (h : code.Fits) : ∀ l ∈ code.lines, l.WellFormed := by
  intro l hl
  cases code with
  | write width address value =>
    obtain rfl := List.mem_singleton.1 hl
    exact ⟨digits_typed (by cases width <;> decide) address, .word _⟩
  | pointer width base value first rest =>
    rcases List.mem_cons.1 hl with rfl | hl
    · exact ⟨digits_typed (by decide) base, .word _⟩
    · rcases List.mem_cons.1 hl with rfl | hl
      · have hcount : Digits 4 (Hex.padded 4 (rest.length + 1)) := by
          refine .padded (by decide) ?_
          have hle : rest.length + 1 ≤ 0xFFFF := h
          omega
        have hzeros : Digits 3 (ascii "000") := .of_all rfl rfl
        exact ⟨hzeros.append (.cons (by cases width <;> decide) hcount), .word first⟩
      · exact offsetLines_wellFormed rest l hl
  | copy source target length =>
    rcases List.mem_pair.1 hl with rfl | rfl
    · exact ⟨digits_typed (by decide) source, .word length⟩
    · exact ⟨digits_typed (by decide) target, .word 0⟩
  | fill width address value count => exact fillLines_wellFormed width address value h l hl
  | step direction width address value =>
    exact stepLines_wellFormed direction width address value l hl
  | bitwise operation width address value =>
    obtain rfl := List.mem_singleton.1 hl
    exact ⟨digits_typed (by decide) address, .word _⟩
  | store place word =>
    obtain rfl := List.mem_singleton.1 hl
    exact ⟨.word place, .word word⟩

theorem ofBytes_fits (start : Word) (s : Bytes) : ∀ code ∈ ofBytes start s, code.Fits := by
  fun_induction ofBytes start s <;> simp_all [Fits]

theorem ofWords_fits (place : Word) (words : List Word) : ∀ code ∈ ofWords place words,
    code.Fits := by
  induction words generalizing place with
  | nil => simp [ofWords]
  | cons w words ih =>
    intro code hcode
    rcases List.mem_cons.1 hcode with rfl | hcode
    · trivial
    · exact ih (place + 4) code hcode

end Code

theorem Condition.line_allDigits (type : ConditionType) (skip : Nat) (k : Condition) :
    (k.line type skip).AllDigits := by
  have hcode : k.comparison.code < 16 := by cases k.comparison <;> decide
  have hskip : Digits _ (Hex.padded 2 skip) := .fixed _ skip
  have hvalue : Digits 4 k.valueDigits := .fixed 4 _
  have hwidth : ∃ d < 16, widthDigit k.width = Hex.digit d := by
    cases k.width
    · exact ⟨1, by decide, rfl⟩
    · exact ⟨0, by decide, rfl⟩
  obtain ⟨d, hd, hdigit⟩ := hwidth
  cases type with
  | d =>
    refine ⟨⟨8, .cons (by decide) (.fixed 7 _)⟩, ?_⟩
    rw [line, hdigit]
    exact ⟨_, hskip.append (.cons hcode (.cons hd hvalue))⟩
  | e =>
    refine ⟨?_, ⟨8, .cons hcode (.fixed 7 _)⟩⟩
    rw [line, hdigit]
    exact ⟨_, .cons (by decide) (.cons hd (hskip.append hvalue))⟩

/-- The line of a condition is well formed if two digits hold the number of lines to skip. -/
theorem Condition.line_wellFormed (type : ConditionType) {skip : Nat} (h : skip ≤ 255)
    (k : Condition) : (k.line type skip).WellFormed := by
  obtain ⟨⟨m, hleft⟩, ⟨n, hright⟩⟩ := k.line_allDigits type skip
  have hskip : (Hex.padded 2 skip).length = 2 := (Digits.padded (by decide) (by omega)).1
  have hlengths : (k.line type skip).left.length = 8 ∧ (k.line type skip).right.length = 8 := by
    cases type <;> simp [line, valueDigits, Hex.length_fixed, hskip]
  exact ⟨⟨hlengths.1, hleft.2⟩, ⟨hlengths.2, hright.2⟩⟩

/-! ## Statements -/

/-- Codes that fit, and no text. -/
def Fragment.Fits (f : Fragment) : Prop := ∃ list, f = .codes list ∧ ∀ code ∈ list, code.Fits

/-- The names of the commands that copy a text into the codes. -/
def rawNames : List Bytes := ["SENDRAW", "SR", "SENDRAWWEIGHT", "SRW"].map ascii

/-- A command that copies no text, and whose chain of pointers, if it has one, has at most `0xFFFF`
offsets after its base. -/
structure Command.Plain (c : Command) : Prop where
  notRaw : c.name ∉ rawNames
  chain : ∀ value, Verb.ofName? c.name = some (.writePointer value) →
    ∀ chain rest, Argument.chain c.args = .ok (chain, rest) → chain.length ≤ 0xFFFF + 1

namespace Statement

open Outcome

variable {c : Command} {args : List Bytes} {code : Code}

theorem pointerCode_fits {value : PointerValue}
    (hchain : ∀ chain rest, Argument.chain args = .ok (chain, rest) → chain.length ≤ 0xFFFF + 1)
    (h : pointerCode value args = .ok code) : code.Fits := by
  unfold pointerCode at h
  split at h
  · cases h
  · obtain ⟨⟨chain, rest⟩, hread, h⟩ := bind_eq_ok.1 h
    obtain ⟨number, -, h⟩ := bind_eq_ok.1 h
    obtain ⟨v, -, h⟩ := bind_eq_ok.1 h
    have hlen := hchain chain rest hread
    split at h
    · obtain rfl := pure_eq_ok.1 h
      simp only [List.length_cons] at hlen
      exact Nat.le_of_succ_le_succ hlen
    · cases h

theorem elements_le {width : Width} {bytes count : Nat} (h : elements width bytes = .ok count) :
    count ≤ 0xFFFF := by
  cases width <;>
  · simp only [elements] at h
    grind

theorem fillCode_fits {width : Width} (h : fillCode width args = .ok code) : code.Fits := by
  unfold fillCode at h
  split at h
  · cases h
  · obtain ⟨⟨address, rest⟩, -, h⟩ := bind_eq_ok.1 h
    obtain ⟨⟨value, rest⟩, -, h⟩ := bind_eq_ok.1 h
    obtain ⟨number, -, h⟩ := bind_eq_ok.1 h
    obtain ⟨size, -, h⟩ := bind_eq_ok.1 h
    obtain ⟨bytes, -, h⟩ := bind_eq_ok.1 h
    obtain ⟨count, hcount, h⟩ := bind_eq_ok.1 h
    obtain rfl := pure_eq_ok.1 h
    exact elements_le hcount

theorem copyCode_fits (h : copyCode args = .ok code) : code.Fits := by
  unfold copyCode at h
  split at h
  · cases h
  · obtain ⟨⟨source, rest⟩, -, h⟩ := bind_eq_ok.1 h
    obtain ⟨⟨target, rest⟩, -, h⟩ := bind_eq_ok.1 h
    obtain ⟨number, -, h⟩ := bind_eq_ok.1 h
    obtain ⟨v, -, h⟩ := bind_eq_ok.1 h
    obtain ⟨bytes, -, h⟩ := bind_eq_ok.1 h
    obtain rfl := pure_eq_ok.1 h
    trivial

/-- What a verb emits: a text if it copies one, otherwise codes, of which only those of pointer
chains may have counts that do not fit. -/
theorem ofVerb_emit [TextEncoder] {e : TextEncoding} {verb : Verb} {f : Fragment}
    (h : ofVerb e c verb = .ok (.emit f)) :
    (verb = .sendRaw ∧ ∃ s, f = .inline s) ∨ (verb = .sendRawWeight ∧ ∃ s, f = .block s) ∨
      ∃ list, f = .codes list ∧ ∀ code ∈ list, code.Fits ∨
        ∃ value, verb = .writePointer value ∧ pointerCode value c.args = .ok code := by
  have hcodes : ∀ list, (∀ code ∈ list, code.Fits) → Statement.emit (.codes list) = .emit f →
      ∃ list, f = .codes list ∧ ∀ code ∈ list, code.Fits ∨
        ∃ value, verb = .writePointer value ∧ pointerCode value c.args = .ok code := by
    intro list hlist hf
    exact ⟨list, (Statement.emit.inj hf).symm, fun code hcode => .inl (hlist code hcode)⟩
  have hsingle : ∀ code : Code, single code = .emit f → code.Fits →
      ∃ list, f = .codes list ∧ ∀ code ∈ list, code.Fits ∨
        ∃ value, verb = .writePointer value ∧ pointerCode value c.args = .ok code := by
    intro code hf hcode
    exact hcodes [code] (List.forall_mem_singleton.2 hcode) hf
  cases verb with
  | setEncoding =>
    obtain ⟨encoding, -, h⟩ := bind_eq_ok.1 h
    cases pure_eq_ok.1 h
  | sendRaw =>
    obtain ⟨raw, -, h⟩ := bind_eq_ok.1 h
    exact .inl ⟨rfl, raw, (Statement.emit.inj (pure_eq_ok.1 h)).symm⟩
  | sendRawWeight =>
    obtain ⟨raw, -, h⟩ := bind_eq_ok.1 h
    exact .inr (.inl ⟨rfl, raw, (Statement.emit.inj (pure_eq_ok.1 h)).symm⟩)
  | write width =>
    obtain ⟨⟨address, value⟩, -, h⟩ := bind_eq_ok.1 h
    exact .inr (.inr (hsingle _ (pure_eq_ok.1 h) trivial))
  | writeFloat =>
    obtain ⟨⟨address, value⟩, -, h⟩ := bind_eq_ok.1 h
    exact .inr (.inr (hsingle _ (pure_eq_ok.1 h) trivial))
  | writeString =>
    obtain ⟨codes, hof, h⟩ := bind_eq_ok.1 h
    obtain ⟨⟨address, text⟩, -, hof⟩ := bind_eq_ok.1 hof
    obtain rfl := pure_eq_ok.1 hof
    exact .inr (.inr (hcodes _ (Code.ofBytes_fits _ _) (pure_eq_ok.1 h)))
  | writeBytes =>
    obtain ⟨codes, hof, h⟩ := bind_eq_ok.1 h
    obtain ⟨⟨address, text⟩, -, hof⟩ := bind_eq_ok.1 hof
    simp only at hof
    split at hof
    · obtain rfl := pure_eq_ok.1 hof
      exact .inr (.inr (hcodes _ (Code.ofBytes_fits _ _) (pure_eq_ok.1 h)))
    · cases hof
  | writePointer value =>
    obtain ⟨code, hcode, h⟩ := bind_eq_ok.1 h
    refine .inr (.inr ⟨[code], (Statement.emit.inj (pure_eq_ok.1 h)).symm, fun other hother => ?_⟩)
    rw [List.mem_singleton.1 hother]
    exact .inr ⟨value, rfl, hcode⟩
  | copyBytes =>
    obtain ⟨code, hcode, h⟩ := bind_eq_ok.1 h
    exact .inr (.inr (hsingle _ (pure_eq_ok.1 h) (copyCode_fits hcode)))
  | fill width =>
    obtain ⟨code, hcode, h⟩ := bind_eq_ok.1 h
    exact .inr (.inr (hsingle _ (pure_eq_ok.1 h) (fillCode_fits hcode)))
  | step direction width =>
    obtain ⟨⟨address, value⟩, -, h⟩ := bind_eq_ok.1 h
    exact .inr (.inr (hsingle _ (pure_eq_ok.1 h) trivial))
  | bitwise operation width =>
    obtain ⟨⟨address, value⟩, -, h⟩ := bind_eq_ok.1 h
    exact .inr (.inr (hsingle _ (pure_eq_ok.1 h) trivial))
  | openIf =>
    obtain ⟨condition, -, h⟩ := bind_eq_ok.1 h
    cases pure_eq_ok.1 h
  | closeIf => cases pure_eq_ok.1 h

theorem ofCommand_eq_ok [TextEncoder] {e : TextEncoding} {s : Statement}
    (h : ofCommand e c = .ok s) :
    ∃ verb, Verb.ofName? c.name = some verb ∧ ofVerb e c verb = .ok s := by
  unfold ofCommand at h
  cases hverb : Verb.ofName? c.name with
  | none =>
    rw [hverb] at h
    cases h
  | some verb =>
    rw [hverb] at h
    exact ⟨verb, rfl, Command.blame_eq_ok.1 h⟩

theorem mem_rawNames {name : Bytes} {verb : Verb} (h : Verb.ofName? name = some verb)
    (hraw : verb = .sendRaw ∨ verb = .sendRawWeight) : name ∈ rawNames := by
  have hnames : ∀ entry ∈ Verb.names, entry.2 = .sendRaw ∨ entry.2 = .sendRawWeight →
      entry.1 ∈ rawNames := by decide
  obtain ⟨before, after, hsplit, -⟩ := List.lookup_eq_some_iff.1 h
  refine hnames (name, verb) ?_ hraw
  rw [hsplit]
  exact List.mem_append_right _ List.mem_cons_self

/-- A command that copies no text emits codes. -/
theorem ofCommand_codes [TextEncoder] {e : TextEncoding} {f : Fragment} (hraw : c.name ∉ rawNames)
    (h : ofCommand e c = .ok (.emit f)) :
    ∃ list, f = .codes list ∧ ∀ code ∈ list, code.Fits ∨
      ∃ value, Verb.ofName? c.name = some (.writePointer value) ∧
        pointerCode value c.args = .ok code := by
  obtain ⟨verb, hverb, hof⟩ := ofCommand_eq_ok h
  rcases ofVerb_emit hof with ⟨hcopies, -⟩ | ⟨hcopies, -⟩ | ⟨list, hf, hlist⟩
  · exact absurd (mem_rawNames hverb (.inl hcopies)) hraw
  · exact absurd (mem_rawNames hverb (.inr hcopies)) hraw
  · refine ⟨list, hf, fun code hcode => (hlist code hcode).imp id ?_⟩
    rintro ⟨value, rfl, hpointer⟩
    exact ⟨value, hverb, hpointer⟩

theorem ofCommand_fits [TextEncoder] {e : TextEncoding} {f : Fragment} (hc : c.Plain)
    (h : ofCommand e c = .ok (.emit f)) : f.Fits := by
  obtain ⟨list, hf, hlist⟩ := ofCommand_codes hc.notRaw h
  refine ⟨list, hf, fun code hcode => ?_⟩
  rcases hlist code hcode with hfits | ⟨value, hverb, hpointer⟩
  · exact hfits
  · exact pointerCode_fits (hc.chain value hverb) hpointer

end Statement

/-! ## Pieces -/

theorem AsmScope.close_eq_ok {t : DefinitionTable} {s : AsmScope} {c : Command} {codes : List Code}
    (h : (s.close t c).result = .ok codes) :
    ∃ words, (Assembly.assemble t s.place s.lines).words = .ok words ∧
      codes = Code.ofWords s.place words := by
  unfold AsmScope.close at h
  split at h
  · obtain ⟨words, hwords, h⟩ := Stage.bind_result_eq_ok.1 h
    obtain ⟨_, -, h⟩ := Stage.bind_result_eq_ok.1 h
    exact ⟨words, hwords, (Stage.pure_result_eq_ok.1 h).symm⟩
  · cases h

/-- The piece that the statement of a command contributes, if it contributes one. -/
def Statement.piece? (c : Command) : Statement → Option Piece
  | .emit f => some (.output c f)
  | .encoding _ => none
  | .openIf condition => some (.test c condition)
  | .closeIf => some .close

/-- Rendered pieces come from statements and from assembled scopes, so what holds of these holds of
all of them. -/
theorem renderFrom_pieces [TextEncoder] {P : Piece → Prop} {t : DefinitionTable} {e : TextEncoding}
    {scope : Option AsmScope} {cmds : List Command} {pieces : List Piece}
    (hstatement : ∀ c ∈ cmds, ∀ e s, Statement.ofCommand e c = .ok s → ∀ p ∈ s.piece? c, P p)
    (hasm : ∀ c ∈ cmds, ∀ s codes, (AsmScope.close t s c).result = .ok codes →
      P (.output c (.codes codes)))
    (h : (renderFrom t e scope cmds).result = .ok pieces) : ∀ p ∈ pieces, P p := by
  induction cmds generalizing e scope pieces with
  | nil =>
    cases scope with
    | none =>
      obtain rfl := Except.ok.inj h
      simp
    | some s => cases h
  | cons c cmds ih =>
    obtain ⟨hfirst, hothers⟩ := List.forall_mem_cons.1 hstatement
    obtain ⟨hclose, hcloses⟩ := List.forall_mem_cons.1 hasm
    -- a piece in front of those of the other commands
    have hcons : ∀ (e : TextEncoding) (p : Piece), P p →
        (renderFrom t e none cmds >>= fun others => pure (p :: others)).result = .ok pieces →
          ∀ p ∈ pieces, P p := by
      intro e p hp h
      obtain ⟨others, hrender, h⟩ := Stage.bind_result_eq_ok.1 h
      obtain rfl := Stage.pure_result_eq_ok.1 h
      exact List.forall_mem_cons.2 ⟨hp, ih hothers hcloses hrender⟩
    cases scope with
    | some s =>
      unfold renderFrom at h
      split at h
      · obtain ⟨codes, hcodes, h⟩ := Stage.bind_result_eq_ok.1 h
        exact hcons e _ (hclose s codes hcodes) h
      · exact ih hothers hcloses h
    | none =>
      unfold renderFrom at h
      split at h
      · obtain ⟨s, -, h⟩ := Stage.bind_result_eq_ok.1 h
        exact ih hothers hcloses h
      · obtain ⟨statement, hof, h⟩ := Stage.bind_result_eq_ok.1 h
        cases statement with
        | encoding e' => exact ih hothers hcloses h
        | emit f => exact hcons e _ (hfirst e _ hof _ rfl) h
        | openIf condition => exact hcons e _ (hfirst e _ hof _ rfl) h
        | closeIf => exact hcons e _ (hfirst e _ hof _ rfl) h

/-- What holds of the fragments of statements and of assembled words holds of all rendered
output. -/
theorem renderFrom_outputs [TextEncoder] {P : Fragment → Prop} {t : DefinitionTable}
    {e : TextEncoding} {scope : Option AsmScope} {cmds : List Command} {pieces : List Piece}
    (hstatement : ∀ c ∈ cmds, ∀ e f, Statement.ofCommand e c = .ok (.emit f) → P f)
    (hasm : ∀ place words, P (.codes (Code.ofWords place words)))
    (h : (renderFrom t e scope cmds).result = .ok pieces) : ∀ c f, .output c f ∈ pieces → P f := by
  have hall : ∀ p ∈ pieces, ∀ c f, p = .output c f → P f := by
    refine renderFrom_pieces ?_ ?_ h
    · intro c hc e s hof p hp d f hpiece
      cases s with
      | emit g =>
        obtain rfl := Option.some.inj hp
        obtain ⟨rfl, rfl⟩ := Piece.output.inj hpiece
        exact hstatement c hc e _ hof
      | encoding e' => cases hp
      | openIf condition =>
        obtain rfl := Option.some.inj hp
        cases hpiece
      | closeIf =>
        obtain rfl := Option.some.inj hp
        cases hpiece
    · intro c _ s codes hclose d f hpiece
      obtain ⟨-, rfl⟩ := Piece.output.inj hpiece
      obtain ⟨words, -, rfl⟩ := AsmScope.close_eq_ok hclose
      exact hasm s.place words
  intro c f hf
  exact hall _ hf c f rfl

/-- Rendering plain commands gives codes that fit. -/
theorem renderFrom_fits [TextEncoder] {t : DefinitionTable} {e : TextEncoding}
    {scope : Option AsmScope}
    {cmds : List Command} {pieces : List Piece} (hcmds : ∀ c ∈ cmds, c.Plain)
    (h : (renderFrom t e scope cmds).result = .ok pieces) :
    ∀ c f, .output c f ∈ pieces → f.Fits := by
  refine renderFrom_outputs ?_ ?_ h
  · intro c hc e f hof
    exact Statement.ofCommand_fits (hcmds c hc) hof
  · intro place words
    exact ⟨_, rfl, Code.ofWords_fits place words⟩

/-- The code lines of a packed piece. -/
def Packed.codeLines (type : ConditionType) : Packed → List CodeLine
  | .test condition skip => [condition.line type skip]
  | .output (.codes list) => list.flatMap Code.lines
  | .output _ => []

theorem Packed.text_eq {type : ConditionType} {p : Packed} (h : ∀ f, p = .output f → f.Fits) :
    p.text type = ((p.codeLines type).map CodeLine.text).flatMap (Byte.newline :: ·) := by
  rw [List.flatMap_map]
  cases p with
  | test condition skip => rfl
  | output f =>
    obtain ⟨list, rfl, -⟩ := h f rfl
    rfl

/-- What packed codes output is output of the pieces. -/
theorem Scope.mem_output_of_pack {pieces : List Piece} {codes : List Packed} {f : Fragment}
    (h : pack pieces = .ok codes) (hf : .output f ∈ codes) : ∃ c, .output c f ∈ pieces := by
  obtain ⟨-, nested, parts, hnest, hparts, rfl⟩ := pack_eq_ok h
  obtain ⟨c, hc⟩ := mem_flatten hf
  exact ⟨c, nestFrom_mem_output hnest (hparts.mem_output hc)⟩

/-- A packed condition skips at most 255 lines. -/
theorem Scope.skip_le_of_pack {pieces : List Piece} {codes : List Packed} {k : Condition}
    {skip : Nat} (h : pack pieces = .ok codes) (htest : .test k skip ∈ codes) : skip ≤ 255 := by
  obtain ⟨hclosed, nested, parts, hnest, hparts, rfl⟩ := pack_eq_ok h
  obtain ⟨c, rest, hsuffix, rfl⟩ := mem_flatten_test htest
  obtain ⟨n, hn⟩ := closed_of_suffix (closed_parts hclosed hnest hparts) hsuffix
  rw [weight, hn]
  exact (hparts.small (Nat.zero_le _)).2 c k rest hsuffix n hn

/-- **The form of packed codes.** Where the output pieces of a script are codes that fit, the text
of its packed codes is well-formed lines with newlines between them. -/
theorem Scope.pack_lines {pieces : List Piece} {codes : List Packed} (type : ConditionType)
    (hfits : ∀ c f, .output c f ∈ pieces → f.Fits) (h : pack pieces = .ok codes) :
    ∃ lines : List CodeLine, (∀ l ∈ lines, l.WellFormed) ∧
      joinTexts (codes.map (Packed.text type)) =
        Bytes.join [Byte.newline] (lines.map CodeLine.text) := by
  have houtput : ∀ f, .output f ∈ codes → f.Fits := by
    intro f hf
    obtain ⟨c, hc⟩ := mem_output_of_pack h hf
    exact hfits c f hc
  refine ⟨codes.flatMap (Packed.codeLines type), fun l hl => ?_, ?_⟩
  · obtain ⟨p, hp, hl⟩ := List.mem_flatMap.1 hl
    cases p with
    | test condition skip =>
      obtain rfl := List.mem_singleton.1 hl
      exact condition.line_wellFormed type (skip_le_of_pack h hp)
    | output f =>
      obtain ⟨list, rfl, hlist⟩ := houtput f hp
      obtain ⟨code, hcode, hl⟩ := List.mem_flatMap.1 hl
      exact Code.lines_wellFormed (hlist code hcode) l hl
  · have htexts : codes.map (Packed.text type) =
        (codes.map fun p => (p.codeLines type).map CodeLine.text).map
          (·.flatMap (Byte.newline :: ·)) := by
      rw [List.map_map]
      refine List.map_congr_left fun p hp => ?_
      exact Packed.text_eq (by rintro f rfl; exact houtput f hp)
    rw [htexts, joinTexts_lines, List.map_flatMap, List.flatMap_def]

end CheatScript
