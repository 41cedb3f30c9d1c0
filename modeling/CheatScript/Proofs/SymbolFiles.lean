import CheatScript.Include
import CheatScript.Proofs.ConditionLines
import CheatScript.Proofs.PrintedLines
import CheatScript.Proofs.UpperCase
import CheatScript.Proofs.WrittenBytes

/-!
# Proofs: symbol files

A line of a symbol file binds a name to an address. It is split like a line of a script, so the
address arrives as the name of a command, in upper case. That keeps the value of its digits, but
`0x` turns into `0X`, which is no mark of a number: a symbol whose address is marked is dropped
without a fault.
-/

namespace CheatScript

/-! ## Addresses in upper case -/

namespace Literal

variable {s : Bytes}

theorem isHex_toUpper (c : UInt8) : Byte.isHex (Byte.toUpper c) = Byte.isHex c := by
  grind [Byte.isHex, Byte.toUpper, Byte.isLower, Byte.isDigit]

theorem isHexDigits_toUpper (s : Bytes) : isHexDigits (s.map Byte.toUpper) = isHexDigits s := by
  have hall : (s.map Byte.toUpper).all Byte.isHex = s.all Byte.isHex := by
    rw [List.all_map]
    exact congrArg (s.all ·) (funext isHex_toUpper)
  rw [isHexDigits, isHexDigits, List.length_map, hall]

theorem after?_minus_toUpper (s : Bytes) :
    Bytes.after? [Byte.minus] (s.map Byte.toUpper) = (Bytes.after? [Byte.minus] s).map
      (·.map Byte.toUpper) := by
  cases s with
  | nil => rfl
  | cons c s =>
    have hsign : Byte.minus = Byte.toUpper c ↔ Byte.minus = c := by
      grind [Byte.toUpper, Byte.isLower]
    by_cases hc : Byte.minus = c
    · obtain rfl := hc
      rfl
    · simp [Bytes.after?, hc, hsign]

theorem unsigned_toUpper (s : Bytes) :
    unsigned (s.map Byte.toUpper) = (unsigned s).map Byte.toUpper := by
  rw [unsigned, Bytes.dropLead, after?_minus_toUpper, unsigned, Bytes.dropLead]
  cases Bytes.after? [Byte.minus] s <;> rfl

/-- A text in upper case has no mark. -/
theorem dropLead_hexMark_toUpper (s : Bytes) :
    Bytes.dropLead hexMark (s.map Byte.toUpper) = s.map Byte.toUpper := by
  have hx : (0x78 : UInt8) ∈ hexMark := by decide
  refine Bytes.dropLead_eq_self hx fun hmem => ?_
  obtain ⟨c, -, hc⟩ := List.mem_map.1 hmem
  grind [Byte.toUpper, Byte.isLower]

theorem isAddress_of_isHexDigits (h : isHexDigits (unsigned s) = true) : isAddress s = true := by
  rw [isAddress, dropLead_hexMark_digits h, h]

theorem isPlain_of_isAddress (h : isAddress s = true) : ∀ b ∈ s, Byte.isPlain b = true := by
  intro b hb
  rcases mem_of_isAddress h b hb with rfl | hmark | hhex
  · rfl
  · have hplain : hexMark.all Byte.isPlain = true := rfl
    exact List.all_eq_true.1 hplain b hmark
  · grind [Byte.isPlain, Byte.isHex, Byte.isUpper, Byte.isLower, Byte.isDigit]

theorem isAscii_of_isAddress (h : isAddress s = true) : Bytes.isAscii s = true := by
  rw [Bytes.isAscii, List.all_eq_true]
  intro b hb
  have hbounds := Byte.isPlain_bounds (isPlain_of_isAddress h b hb)
  grind

/-- The upper-case form of a word is an address exactly if the word is one without a mark. -/
theorem isAddress_upper (s : Bytes) : isAddress (Bytes.upper s) = isHexDigits (unsigned s) := by
  by_cases hascii : Bytes.isAscii s = true
  · rw [Bytes.upper, if_pos hascii, isAddress, unsigned_toUpper, dropLead_hexMark_toUpper,
      isHexDigits_toUpper]
  · have hupper : isAddress (Bytes.upper s) = false := by
      rw [Bool.eq_false_iff]
      intro haddress
      refine hascii (isAscii_of_upper fun b hb => ?_)
      rcases mem_of_isAddress haddress b hb with rfl | hmark | hhex
      · decide
      · have hall : hexMark.all (fun a => decide (a < 0x80 ∧ a ∉ [0, 0x49, 0x53])) = true := by
          decide
        exact of_decide_eq_true (List.all_eq_true.1 hall b hmark)
      · grind [Byte.isHex, Byte.isDigit]
    have hdigits : isHexDigits (unsigned s) = false := by
      rw [Bool.eq_false_iff]
      exact fun h => hascii (isAscii_of_isAddress (isAddress_of_isHexDigits h))
    rw [hupper, hdigits]

theorem isHexDigits_unsigned (h : isAddress s = true) :
    isHexDigits (unsigned s) = !isHexMarked s := by
  rw [isHexMarked_eq, Bytes.startsWith]
  cases hafter : Bytes.after? hexMark (unsigned s) with
  | none =>
    rw [isAddress, Bytes.dropLead, hafter] at h
    exact h
  | some rest =>
    have hdigits : isHexDigits (unsigned s) = false := by
      rw [Bool.eq_false_iff]
      intro hall
      have hself := dropLead_hexMark_digits hall
      rw [Bytes.dropLead, hafter, Bytes.eq_append_of_after? hafter] at hself
      exact absurd (congrArg List.length hself) (by simp [hexMark, ascii])
    rw [hdigits]
    rfl

theorem readFrom_toUpper (base limit acc : Nat) (s : Bytes) :
    Numeral.readFrom base limit acc (s.map Byte.toUpper) = Numeral.readFrom base limit acc s := by
  induction s generalizing acc with
  | nil => rfl
  | cons c s ih => simp only [List.map_cons, Numeral.readFrom, Byte.digit?_toUpper, ih]

/-- An address without a mark keeps its value in upper case. -/
theorem address_upper (h : isHexDigits (unsigned s) = true) :
    address (Bytes.upper s) = address s := by
  have hascii := isAscii_of_isAddress (isAddress_of_isHexDigits h)
  have hsign :
      Bytes.startsWith [Byte.minus] (s.map Byte.toUpper) = Bytes.startsWith [Byte.minus] s := by
    rw [Bytes.startsWith, after?_minus_toUpper, Option.isSome_map, Bytes.startsWith]
  have hword : Numeral.hexWord ((unsigned s).map Byte.toUpper) = Numeral.hexWord (unsigned s) := by
    rw [Numeral.hexWord, Numeral.hexWord, Numeral.read, Numeral.read, readFrom_toUpper,
      List.isEmpty_map]
  rw [Bytes.upper, if_pos hascii, address, address, unsigned_toUpper, dropLead_hexMark_toUpper,
    hword, hsign, dropLead_hexMark_digits h]

end Literal

/-! ## Lines -/

theorem Byte.isWordByte_of_isWord {c : UInt8} (h : isWord c = true) :
    Token.isWordByte c = true := by
  have hbounds : 0x30 ≤ c ∧ c ≤ 0x7A := by grind [isWord, isUpper, isLower, isDigit]
  grind [Token.isWordByte, isBlank]

namespace Include

/-- Whether a line gives an address and a name, and perhaps a size after a comma. -/
structure IsEntry (address name line : Bytes) : Prop where
  isAddress : Literal.isAddress address = true
  ne : name ≠ []
  word : ∀ b ∈ name, Byte.isWord b = true
  form : ∃ blanks rest,
    line = address ++ Byte.space :: (List.replicate blanks Byte.space ++ (name ++ rest)) ∧
    ∀ b ∈ rest.head?, b = Byte.comma

/-- Whether a line has no symbol: its first word is no address, its second one starts with a full
stop, or it has no second word. -/
def IsIdle (line : Bytes) : Prop :=
  ∀ first second rest, Token.scan line = first :: second :: rest →
    Literal.isAddress first = false ∨ second.head? = some Byte.dot

variable {path line address name : Bytes} {i : Nat} {c : Command}

theorem IsEntry.scan (h : IsEntry address name line) :
    ∃ rest, Token.scan line = address :: name :: rest := by
  obtain ⟨blanks, rest, rfl, hrest⟩ := h.form
  have hplain := Literal.isPlain_of_isAddress h.isAddress
  have hne : address ≠ [] := by
    intro hnil
    have haddress := h.isAddress
    rw [hnil] at haddress
    cases haddress
  have hspace : ∀ b ∈ (Byte.space :: (List.replicate blanks Byte.space ++ (name ++ rest))).head?,
      Token.isWordByte b = false := by
    intro b hb
    obtain rfl := Option.some.inj hb
    rfl
  have hquote : Byte.quote ∉ name.head? := by
    intro hmem
    exact absurd (h.word _ (List.mem_of_mem_head? hmem)) (by decide)
  have hword : ∀ b ∈ name, Token.isWordByte b = true :=
    fun b hb => Byte.isWordByte_of_isWord (h.word b hb)
  have hcomma : ∀ b ∈ rest.head?, Token.isWordByte b = false := by
    intro b hb
    rw [hrest b hb]
    rfl
  refine ⟨Token.scan rest, ?_⟩
  rw [Token.scan_word hne hplain hspace, Token.scan_space, Token.scan_replicate_space,
    Token.scan_run h.ne hword hquote hcomma]

/-- The command that binds a name in a line of a file. -/
def setCommand (path line : Bytes) (i : Nat) (name token : Bytes) : Command :=
  { text := line, name := ascii "SET", args := [name, token], trace := [⟨path, line, i⟩] }

/-- The symbol of a line, if it has one. -/
def symbolAt (path line : Bytes) (i : Nat) : Option Command :=
  if line.isEmpty then none
  else symbol? { Command.ofLine line with trace := [⟨path, line, i⟩] }

theorem symbolAt_of_scan {first second : Bytes} {rest : List Bytes}
    (h : Token.scan line = first :: second :: rest) :
    symbolAt path line i =
      if second.head? = some Byte.dot ∨ Literal.isHexDigits (Literal.unsigned first) = false then
      none
      else some (setCommand path line i second (Bytes.upper first)) := by
  have hne : line.isEmpty = false := by
    rw [List.isEmpty_eq_false_iff]
    rintro rfl
    cases h
  have hline : Command.ofLine line =
      { text := line, name := Bytes.upper first, args := second :: rest } := by
    rw [Command.ofLine, Token.ofLine, h]
  rw [symbolAt, hne, if_neg Bool.false_ne_true, hline, symbol?]
  simp only [Literal.isAddress_upper, Bool.or_eq_true, beq_iff_eq, Bool.not_eq_true']
  rfl

theorem symbolAt_of_isEntry (h : IsEntry address name line) :
    symbolAt path line i =
      if Literal.isHexMarked address then none
      else some (setCommand path line i name (Bytes.upper address)) := by
  obtain ⟨rest, hscan⟩ := h.scan
  have hdot : name.head? ≠ some Byte.dot := by
    intro hmem
    exact absurd (h.word _ (List.mem_of_mem_head? hmem)) (by decide)
  rw [symbolAt_of_scan hscan, Literal.isHexDigits_unsigned h.isAddress]
  simp [hdot]

theorem symbolAt_of_tail_eq_nil (h : (Token.scan line).tail = []) :
    symbolAt path line i = none := by
  have hargs : (Command.ofLine line).args = [] := by
    rw [Command.ofLine, Token.ofLine]
    cases hscan : Token.scan line with
    | nil => rfl
    | cons first rest =>
      rw [hscan] at h
      exact h
  unfold symbolAt
  split
  · rfl
  · simp only [symbol?, hargs]

theorem symbolAt_of_isIdle (h : IsIdle line) : symbolAt path line i = none := by
  match hscan : Token.scan line with
  | [] => exact symbolAt_of_tail_eq_nil (by rw [hscan]; rfl)
  | [first] => exact symbolAt_of_tail_eq_nil (by rw [hscan]; rfl)
  | first :: second :: rest =>
    rw [symbolAt_of_scan hscan]
    refine if_pos ?_
    rcases h first second rest hscan with haddress | hdot
    · right
      rw [Bool.eq_false_iff]
      exact fun hdigits => Bool.eq_false_iff.1 haddress (Literal.isAddress_of_isHexDigits hdigits)
    · exact .inl hdot

theorem lineIndex_of_symbolAt (h : symbolAt path line i = some c) : c.lineIndex = i := by
  unfold symbolAt at h
  split at h
  · cases h
  · unfold symbol? at h
    split at h
    · cases h
    · split at h
      · cases h
      · obtain rfl := Option.some.inj h
        rfl

/-! ## Files -/

variable {lines : List Bytes}

theorem symbols_eq (path : Bytes) (lines : List Bytes) :
    (Source.commands path lines).filterMap symbol? =
      lines.zipIdx.filterMap fun p => symbolAt path p.1 p.2 := by
  rw [Source.commands, List.filterMap_filterMap]
  refine List.filterMap_congr fun p _ => ?_
  obtain ⟨line, i⟩ := p
  unfold symbolAt
  by_cases hempty : line.isEmpty = true
  · simp only [if_pos hempty]
    rfl
  · simp only [if_neg hempty]
    rfl

theorem pairwise_symbols (path : Bytes) (lines : List Bytes) :
    ((Source.commands path lines).filterMap symbol?).Pairwise fun c d =>
      c.lineIndex < d.lineIndex := by
  have hindices : lines.zipIdx.Pairwise fun p q => p.2 < q.2 := by
    rw [← List.pairwise_map, List.zipIdx_map_snd]
    exact List.pairwise_lt_range'
  rw [symbols_eq]
  refine List.Pairwise.filterMap _ (fun p q hpq c hc d hd => ?_) hindices
  rw [lineIndex_of_symbolAt hc, lineIndex_of_symbolAt hd]
  exact Int.ofNat_lt.2 hpq

theorem exists_of_mem_symbols (h : c ∈ (Source.commands path lines).filterMap symbol?) :
    ∃ i < lines.length, c.lineIndex = (i : Int) := by
  rw [symbols_eq] at h
  obtain ⟨p, hp, hc⟩ := List.mem_filterMap.1 h
  have hbound := (List.mem_zipIdx hp).2.1
  exact ⟨p.2, by omega, lineIndex_of_symbolAt hc⟩

/-- The symbols of a file that come from one of its lines. -/
def symbolsAt (path : Bytes) (lines : List Bytes) (i : Nat) : List Command :=
  ((Source.commands path lines).filterMap symbol?).filter fun c => c.lineIndex = (i : Int)

theorem symbolsAt_eq (path : Bytes) (h : lines[i]? = some line) :
    symbolsAt path lines i = (symbolAt path line i).toList := by
  -- of the lines before and after it none is kept
  have hother : ∀ (part : List Bytes) (k : Nat), (∀ p ∈ part.zipIdx k, p.2 ≠ i) →
      (part.zipIdx k).filterMap
        (fun p => (symbolAt path p.1 p.2).filter fun c => c.lineIndex = (i : Int)) = [] := by
    intro part k hne
    refine List.filterMap_eq_nil_iff.2 fun p hp => Option.filter_eq_none_iff.2 fun c hc => ?_
    rw [lineIndex_of_symbolAt hc, decide_eq_true_eq]
    exact fun heq => hne p hp (Int.ofNat.inj heq)
  obtain ⟨hi, hline⟩ := List.getElem?_eq_some_iff.1 h
  have hparts : lines = lines.take i ++ line :: lines.drop (i + 1) := by
    rw [← hline, ← List.drop_eq_getElem_cons hi, List.take_append_drop]
  have hlen : (lines.take i).length = i := List.length_take_of_le (Nat.le_of_lt hi)
  have hown : (symbolAt path line i).filter (fun c => c.lineIndex = (i : Int)) =
      symbolAt path line i := by
    cases hc : symbolAt path line i with
    | none => rfl
    | some c => exact if_pos (decide_eq_true (lineIndex_of_symbolAt hc))
  have hpre := hother (lines.take i) 0 fun p hp => by
    have hbound := (List.mem_zipIdx hp).2.1
    omega
  have hpost := hother (lines.drop (i + 1)) (i + 1) fun p hp => by
    have hbound := (List.mem_zipIdx hp).1
    omega
  rw [symbolsAt, symbols_eq, List.filter_filterMap, hparts, List.zipIdx_append, List.zipIdx_cons,
    hlen, Nat.zero_add,
    List.filterMap_append, hpre, List.nil_append, List.filterMap_cons, hown, hpost]
  cases symbolAt path line i <;> rfl

/-- **A symbol is lost only if its address is marked.** The symbols of a file come from its lines
and are in their order. A line that gives an address and a name has exactly one, which binds the
name to a token of the same value, unless the address has the mark `0x`: then it has none. Lines
whose first word is no address or whose second one starts with a full stop have none either. -/
theorem symbols_of_lines (path : Bytes) (lines : List Bytes) :
    ((Source.commands path lines).filterMap symbol?).Pairwise
    (fun c d => c.lineIndex < d.lineIndex) ∧
    (∀ c ∈ (Source.commands path lines).filterMap symbol?, ∃ i < lines.length,
      c.lineIndex = (i : Int)) ∧
    ∀ (i : Nat) (line : Bytes), lines[i]? = some line →
      (∀ address name, IsEntry address name line →
        (Literal.isHexMarked address = false → ∃ token,
          Literal.address token = Literal.address address ∧
          symbolsAt path lines i = [setCommand path line i name token]) ∧
        (Literal.isHexMarked address = true → symbolsAt path lines i = [])) ∧
      (IsIdle line → symbolsAt path lines i = []) := by
  refine ⟨pairwise_symbols path lines, fun c hc => exists_of_mem_symbols hc, fun i line hline => ?_⟩
  rw [symbolsAt_eq path hline]
  refine ⟨fun address name hentry => ⟨fun hmark => ?_, fun hmark => ?_⟩, fun hidle => ?_⟩
  · have hdigits := Literal.isHexDigits_unsigned hentry.isAddress
    rw [hmark] at hdigits
    refine ⟨Bytes.upper address, Literal.address_upper hdigits, ?_⟩
    rw [symbolAt_of_isEntry hentry, hmark]
    rfl
  · rw [symbolAt_of_isEntry hentry, hmark]
    rfl
  · rw [symbolAt_of_isIdle hidle]
    rfl

/-- A file with a function, a symbol that is lost and a data directive. -/
def mixedSymbols : List Bytes := ["-fF main,1C", "0x20 lost", "30 .byt:4"].map ascii

theorem symbols_of_lines_mixed : ∃ token, Literal.address token = .ok (-0xFF) ∧
    symbolsAt (ascii "game.sym") mixedSymbols 0 =
      [setCommand (ascii "game.sym") (ascii "-fF main,1C") 0 (ascii "main") token] ∧
    symbolsAt (ascii "game.sym") mixedSymbols 1 = [] ∧ symbolsAt (ascii "game.sym") mixedSymbols 2 =
        [] := by
  obtain ⟨-, -, hlines⟩ := symbols_of_lines (ascii "game.sym") mixedSymbols
  have hmain : IsEntry (ascii "-fF") (ascii "main") (ascii "-fF main,1C") :=
    ⟨rfl, by decide, List.all_eq_true.1 rfl, 0, ascii ",1C", rfl, by rintro b ⟨⟩; rfl⟩
  have hlost : IsEntry (ascii "0x20") (ascii "lost") (ascii "0x20 lost") :=
    ⟨rfl, by decide, List.all_eq_true.1 rfl, 0, [], rfl, by simp⟩
  have hdata : IsIdle (ascii "30 .byt:4") := by
    intro first second rest hscan
    have hwords : Token.scan (ascii "30 .byt:4") = [ascii "30", ascii ".byt:4"] := rfl
    rw [hwords] at hscan
    obtain ⟨-, htail⟩ := List.cons.inj hscan
    obtain ⟨hsecond, -⟩ := List.cons.inj htail
    exact .inr (hsecond ▸ rfl)
  obtain ⟨token, hvalue, hfirst⟩ := ((hlines 0 _ rfl).1 _ _ hmain).1 rfl
  exact ⟨token, hvalue, hfirst, ((hlines 1 _ rfl).1 _ _ hlost).2 rfl, (hlines 2 _ rfl).2 hdata⟩

/-- The symbol of a line with a marked address is lost. -/
theorem symbols_lose_marked :
    IsEntry (ascii "0x00100000") (ascii "foo") (ascii "0x00100000 foo") ∧
      commandsOf (ascii "x.sym") (ascii "0x00100000 foo\n") = [] :=
  ⟨⟨rfl, by decide, List.all_eq_true.1 rfl, 0, [], rfl, by simp⟩, by decide⟩

end Include

end CheatScript
