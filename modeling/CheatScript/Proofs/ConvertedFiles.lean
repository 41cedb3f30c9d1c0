import CheatScript.Conversion
import CheatScript.Proofs.CodeFileRows

/-!
# Proofs: a file converted to patch lines and back

A file without patch lines is converted to a patch file, and that one back to a file of codes. The
way of each conversion is found from the lines. A code line comes back trimmed and in upper case,
any other line as it was but for a carriage return at its end, and as many lines are counted as
there are.
-/

namespace CheatScript

/-! ## Ends of lines -/

namespace Bytes

theorem dropTail_concat (c : UInt8) (s : Bytes) : dropTail [c] (s ++ [c]) = s := by
  simp [dropTail, before?, after?]

/-- Either a byte at the end is dropped, or another one stands there. -/
theorem dropTail_cases (c : UInt8) (s : Bytes) :
    s = dropTail [c] s ++ [c] ∨ (dropTail [c] s = s ∧ ∀ a ∈ s.getLast?, a ≠ c) := by
  by_cases hlast : ∀ a ∈ s.getLast?, a ≠ c
  · exact .inr ⟨dropTail_of_last hlast, hlast⟩
  · push Not at hlast
    obtain ⟨a, ha, rfl⟩ := hlast
    obtain ⟨init, rfl⟩ := List.getLast?_eq_some_iff.1 ha
    rw [dropTail_concat]
    exact .inl rfl

theorem mem_of_mem_dropTail {c a : UInt8} {s : Bytes} (h : a ∈ dropTail [c] s) : a ∈ s := by
  rcases dropTail_cases c s with hs | ⟨hs, -⟩
  · rw [hs]
    exact List.mem_append_left _ h
  · rwa [hs] at h

end Bytes

theorem Space.trim_dropTail_carriage (s : Bytes) :
    trim (Bytes.dropTail [Byte.carriage] s) = trim s := by
  rcases Bytes.dropTail_cases Byte.carriage s with hs | ⟨hs, -⟩
  · conv_rhs => rw [hs, trim_concat_blank rfl]
  · rw [hs]

/-! ## Code lines in either case -/

theorem Byte.isUpperHex_toUpper {c : UInt8} (h : isHex c = true) :
    isUpperHex (toUpper c) = true := by
  grind [isHex, isUpperHex, toUpper, isLower, isDigit]

theorem Digits.of_isHex {n : Nat} {s : Bytes} (hlength : s.length = n)
    (h : s.all Byte.isHex = true) : Digits n (s.map Byte.toUpper) := by
  refine ⟨by rw [List.length_map, hlength], fun c hc => ?_⟩
  obtain ⟨b, hb, rfl⟩ := List.mem_map.1 hc
  exact Byte.isUpperHex_toUpper (List.all_eq_true.1 h b hb)

/-- A code line is one of two halves of eight digits when it is in upper case. -/
theorem CodeFile.exists_of_isCodeLine {s : Bytes} (h : isCodeLine s = true) :
    ∃ c : CodeLine, c.WellFormed ∧ s.map Byte.toUpper = c.text := by
  rw [isCodeLine] at h
  simp only [Bool.and_eq_true, beq_iff_eq] at h
  obtain ⟨⟨⟨hlength, hleft⟩, hblank⟩, hright⟩ := h
  have hlt : 8 < s.length := by omega
  have hdrop : s.drop 8 = Byte.space :: s.drop 9 := by
    rw [List.drop_eq_getElem_cons hlt, (List.getElem?_eq_some_iff.1 hblank).2]
  refine ⟨⟨(s.take 8).map Byte.toUpper, (s.drop 9).map Byte.toUpper⟩,
    ⟨.of_isHex ?_ hleft, .of_isHex ?_ hright⟩, ?_⟩
  · rw [List.length_take]
    omega
  · rw [List.length_drop]
    omega
  · conv_lhs => rw [← List.take_append_drop 8 s, hdrop, List.map_append, List.map_cons]
    rfl

/-- The number of lines that are counted. -/
def Tally.total (t : Tally) : Nat := t.converted + t.copied + t.errors

/-! ## Kinds of lines -/

namespace LineKind

variable {s : Bytes}

theorem ofLine_trim (s : Bytes) : ofLine (Space.trim s) = ofLine s := by
  rw [ofLine, ofLine, Space.trim_trim]

/-- Neither the blanks around a line nor a carriage return at its end decide its kind. -/
theorem ofLine_bare (s : Bytes) :
    ofLine (Space.trim (Bytes.dropTail [Byte.carriage] s)) = ofLine s := by
  rw [Space.trim_dropTail_carriage, ofLine_trim]

theorem ofLine_dropTail (s : Bytes) : ofLine (Bytes.dropTail [Byte.carriage] s) = ofLine s := by
  rw [← ofLine_trim, ofLine_bare]

theorem isCodeLine_of_ofLine (h : ofLine s = .code) :
    CodeFile.isCodeLine (Space.trim s) = true := by
  rw [ofLine] at h
  grind

theorem ofLine_of_not_startsPatch (h : startsPatch (Space.trim s) = false)
    (hcode : ofLine s ≠ .code) : ofLine s = .other := by
  rw [ofLine] at hcode ⊢
  grind

theorem ofLine_patch {c : CodeLine} (h : c.WellFormed) : ofLine (Patch.ofLine c) = .patch := by
  have hnot : CodeFile.isCodeLine (Patch.ofLine c) = false := by
    have hhalves := CodeFile.isCodeLine_patch h [] []
    rwa [List.nil_append, List.append_nil] at hhalves
  have hstarts : startsPatch (Patch.ofLine c) = true := rfl
  rw [ofLine, (Patch.solidEnds_ofLine h).trim_eq]
  simp only [hnot, hstarts, Patch.pair?_ofLine h]
  rfl

end LineKind

namespace Conversion

open LineKind

variable {s input : Bytes}

/-! ## One line -/

/-- A code line becomes the patch line of its halves. -/
theorem line_toPatches_code (h : ofLine s = .code) :
    ∃ c : CodeLine, c.WellFormed ∧ (Space.trim s).map Byte.toUpper = c.text ∧
      line .toPatches s = .converted (Patch.ofLine c) := by
  obtain ⟨c, hc, htext⟩ := CodeFile.exists_of_isCodeLine (isCodeLine_of_ofLine h)
  refine ⟨c, hc, htext, ?_⟩
  have hcodes : Patch.ofCodes c.text = Patch.ofLine c := by
    have happend := Patch.ofCodes_text hc []
    rwa [List.append_nil, show Patch.ofCodes [] = [] from rfl, List.append_nil] at happend
  unfold line
  simp only [Space.trim_dropTail_carriage, ofLine_trim, h, htext, hcodes]

theorem line_other (way : ConversionWay) (h : ofLine s = .other) :
    line way s = .copied (Bytes.dropTail [Byte.carriage] s) := by
  unfold line
  simp only [ofLine_bare, h]

/-- The patch line of two halves becomes their code line. -/
theorem line_toCodes_patch {c : CodeLine} (h : c.WellFormed) :
    line .toCodes (Patch.ofLine c) = .converted c.text := by
  have htrim := (Patch.solidEnds_ofLine h).trim_eq
  unfold line
  simp only [Patch.dropTail_ofLine h, htrim, ofLine_patch h, Patch.pair?_ofLine h]
  rfl

/-- A line as it comes back: a code line trimmed and in upper case, any other line without a
carriage return at its end. -/
def restored (s : Bytes) : Bytes :=
  if ofLine s = .code then (Space.trim s).map Byte.toUpper else Bytes.dropTail [Byte.carriage] s

/-- What becomes of a line that is a code line or no code at all, when code lines are converted and
the others are copied. -/
def settled (s text : Bytes) : LineOutcome :=
  if ofLine s = .code then .converted text else .copied text

/-- Whether a line does not start like a patch line, and has no carriage return but at its end. -/
structure Plain (s : Bytes) : Prop where
  noPatch : startsPatch (Space.trim s) = false
  carriage : Byte.carriage ∉ s.dropLast

/-- The line that is written for a line in a file of patch lines. -/
def patched (s : Bytes) : Bytes := (line .toPatches s).text

theorem text_settled (s text : Bytes) : (settled s text).text = text := by
  rw [settled]
  split <;> rfl

/-- What the two conversions make of a line, one after the other. -/
structure Returns (s : Bytes) : Prop where
  forth : line .toPatches s = settled s (patched s)
  back : line .toCodes (patched s) = settled s (restored s)
  newline : Byte.newline ∉ s → Byte.newline ∉ patched s
  kind : ofLine (patched s) = if ofLine s = .code then .patch else .other

theorem Plain.returns (h : Plain s) : Returns s := by
  by_cases hcode : ofLine s = .code
  · obtain ⟨c, hc, htext, hline⟩ := line_toPatches_code hcode
    have hpatched : patched s = Patch.ofLine c := congrArg LineOutcome.text hline
    constructor
    · rw [hline, hpatched, settled, if_pos hcode]
    · rw [hpatched, line_toCodes_patch hc, settled, if_pos hcode, restored, if_pos hcode, htext]
    · rw [hpatched]
      exact fun _ => Patch.newline_not_mem_ofLine hc
    · rw [hpatched, ofLine_patch hc, if_pos hcode]
  · have hother := ofLine_of_not_startsPatch h.noPatch hcode
    have hline := line_other .toPatches hother
    have hpatched : patched s = Bytes.dropTail [Byte.carriage] s := congrArg LineOutcome.text hline
    have hbare : Bytes.dropTail [Byte.carriage] (Bytes.dropTail [Byte.carriage] s) =
        Bytes.dropTail [Byte.carriage] s := by
      rcases Bytes.dropTail_cases Byte.carriage s with hs | ⟨hs, -⟩
      · -- A second carriage return would stand before the one at the end.
        have hcarriage := h.carriage
        rw [hs, List.dropLast_concat] at hcarriage
        refine Bytes.dropTail_of_last fun a ha heq => hcarriage ?_
        have hmem := List.mem_of_getLast? ha
        rwa [heq] at hmem
      · rw [hs, hs]
    constructor
    · rw [hline, hpatched, settled, if_neg hcode]
    · rw [hpatched, line_other _ ((ofLine_dropTail s).trans hother), hbare, settled, if_neg hcode,
        restored, if_neg hcode]
    · rw [hpatched]
      exact fun hnewline hmem => hnewline (Bytes.mem_of_mem_dropTail hmem)
    · rw [hpatched, ofLine_dropTail, hother, if_neg (by decide)]

/-! ## Files -/

theorem newline_not_mem_linesOf (input : Bytes) : ∀ s ∈ linesOf input, Byte.newline ∉ s :=
  fun _ hs => Bytes.not_mem_of_mem_split hs

/-- The lines that are written are the lines of the file that is written. -/
theorem linesOf_text {way : ConversionWay} (h : ∀ o ∈ outcomes way input, Byte.newline ∉ o.text) :
    linesOf (text way [] input) = (outcomes way input).map (·.text) := by
  have hne : (outcomes way input).map (·.text) ≠ [] := by
    simp [outcomes, linesOf, Bytes.split_ne_nil]
  have hlines : ∀ s ∈ (outcomes way input).map (·.text), Byte.newline ∉ s := by
    intro s hs
    obtain ⟨o, ho, rfl⟩ := List.mem_map.1 hs
    exact h o ho
  have htext : text way [] input =
      Bytes.join [Byte.newline] ((outcomes way input).map (·.text)) ++ [Byte.newline] := by
    simp [text]
  rw [linesOf, htext, Bytes.dropTail_concat, Bytes.split_join hne hlines]

theorem foldl_add_settled (lines : List Bytes) (f : Bytes → Bytes) (t : Tally) :
    (lines.map fun s => settled s (f s)).foldl Tally.add t =
      ⟨t.converted + lines.countP (ofLine · = .code), t.copied + lines.countP (ofLine · ≠ .code),
        t.errors⟩ := by
  induction lines generalizing t with
  | nil => rfl
  | cons s lines ih =>
    rw [List.map_cons, List.foldl_cons, ih, settled]
    by_cases hcode : ofLine s = .code
    · simp [hcode, Tally.add, Nat.add_assoc, Nat.add_comm 1]
    · simp [hcode, Tally.add, Nat.add_assoc, Nat.add_comm 1]

/-- Code lines are counted as converted and the others as copied. -/
theorem tally_of_outcomes {way : ConversionWay} {lines : List Bytes} {f : Bytes → Bytes}
    (h : outcomes way input = lines.map fun s => settled s (f s)) :
    tally way input = ⟨lines.countP (ofLine · = .code), lines.countP (ofLine · ≠ .code), 0⟩ := by
  rw [tally, h, foldl_add_settled, Nat.zero_add, Nat.zero_add]

/-- The way of a file when it is left open. -/
def openWay (input : Bytes) : ConversionWay := ConversionWay.auto.resolve (linesOf input)

/-- The file without a title that a file becomes when the way is left open. -/
def openText (input : Bytes) : Bytes := text (openWay input) [] input

/-- What is counted when the way is left open. -/
def openTally (input : Bytes) : Tally := tally (openWay input) input

theorem openWay_of_plain (h : ∀ s ∈ linesOf input, Plain s) : openWay input = .toPatches := by
  have hnone : ¬ (linesOf input).any (fun l => ofLine l == .patch || ofLine l == .badPatch) =
      true := by
    rw [List.any_eq_true]
    rintro ⟨s, hs, hpatch⟩
    by_cases hcode : ofLine s = .code
    · rw [hcode] at hpatch
      cases hpatch
    · rw [ofLine_of_not_startsPatch (h s hs).noPatch hcode] at hpatch
      cases hpatch
  exact if_neg hnone

/-- The lines of a file of patch lines. -/
theorem linesOf_openText (h : ∀ s ∈ linesOf input, Plain s) :
    linesOf (openText input) = (linesOf input).map patched := by
  have houtcomes : ∀ o ∈ outcomes .toPatches input, Byte.newline ∉ o.text := by
    intro o ho
    obtain ⟨s, hs, rfl⟩ := List.mem_map.1 ho
    exact (h s hs).returns.newline (newline_not_mem_linesOf input s hs)
  rw [openText, openWay_of_plain h, linesOf_text houtcomes, outcomes, List.map_map]
  rfl

theorem openWay_openText (h : ∀ s ∈ linesOf input, Plain s)
    (hcode : ∃ s ∈ linesOf input, ofLine s = .code) : openWay (openText input) = .toCodes := by
  obtain ⟨s, hs, hcode⟩ := hcode
  have hsome : (linesOf (openText input)).any
      (fun l => ofLine l == .patch || ofLine l == .badPatch) = true := by
    rw [linesOf_openText h, List.any_eq_true]
    refine ⟨patched s, List.mem_map_of_mem hs, ?_⟩
    rw [(h s hs).returns.kind, if_pos hcode]
    rfl
  exact if_pos hsome

theorem outcomes_forth (h : ∀ s ∈ linesOf input, Plain s) :
    outcomes (openWay input) input = (linesOf input).map fun s => settled s (patched s) := by
  rw [openWay_of_plain h]
  exact List.map_congr_left fun s hs => (h s hs).returns.forth

theorem outcomes_back (h : ∀ s ∈ linesOf input, Plain s)
    (hcode : ∃ s ∈ linesOf input, ofLine s = .code) :
    outcomes (openWay (openText input)) (openText input) =
      (linesOf input).map fun s => settled s (restored s) := by
  rw [openWay_openText h hcode, outcomes, linesOf_openText h, List.map_map]
  refine List.map_congr_left fun s hs => ?_
  rw [Function.comp_apply, (h s hs).returns.back]

/-- **A file is converted to patch lines and back.** If no line of a file starts like a patch line,
some line is a code line, and carriage returns stand at ends of lines only, two conversions whose
ways are left open give the file back: its code lines trimmed and in upper case, the others without
the carriage return at their end, and one newline behind the last line. The first conversion counts
the code lines as converted, and both count all lines and find none malformed. -/
theorem openText_openText (input : Bytes)
    (hpatch : ∀ s ∈ linesOf input, startsPatch (Space.trim s) = false)
    (hcode : ∃ s ∈ linesOf input, ofLine s = .code)
    (hcarriage : ∀ s ∈ linesOf input, Byte.carriage ∉ s.dropLast) :
    openText (openText input) =
        Bytes.join [Byte.newline] ((linesOf input).map restored) ++ [Byte.newline] ∧
      (openTally input).converted = (linesOf input).countP (ofLine · = .code) ∧
      ((openTally input).total = (linesOf input).length ∧ (openTally input).errors = 0) ∧
      (openTally (openText input)).total = (linesOf (openText input)).length ∧
        (openTally (openText input)).errors = 0 := by
  have hplain : ∀ s ∈ linesOf input, Plain s := fun s hs => ⟨hpatch s hs, hcarriage s hs⟩
  have hforth := tally_of_outcomes (outcomes_forth hplain)
  have hback := tally_of_outcomes (outcomes_back hplain hcode)
  have hlength := List.length_eq_countP_add_countP (l := linesOf input) (ofLine · = .code)
  simp only [openTally, Tally.total, hforth, hback, linesOf_openText hplain, List.length_map]
  refine ⟨?_, ?_⟩
  · rw [openText, text, outcomes_back hplain hcode]
    simp [Function.comp_def, text_settled]
  · simpa using hlength.symm

/-- A file with a code line in lower case between a no-break space and a blank, a line that holds a
code, and no newline at its end. -/
def mixedFile : Bytes :=
  [0xC2, 0xA0] ++ ascii "20001000 0000000a \r\n// see 20001000 00000005\r\n\nE0010001 00000100"

set_option maxRecDepth 8000 in
theorem openText_openText_mixedFile :
    openText (openText mixedFile) =
        ascii "20001000 0000000A\n// see 20001000 00000005\n\nE0010001 00000100\n" ∧
      (openTally mixedFile).converted = 2 ∧ (openTally mixedFile).total = 4 := by
  obtain ⟨htext, hconverted, ⟨htotal, -⟩, -⟩ :=
    openText_openText mixedFile (by decide) (by decide) (by decide)
  exact ⟨htext.trans (by decide), hconverted.trans (by decide), htotal.trans (by decide)⟩

end Conversion

end CheatScript
