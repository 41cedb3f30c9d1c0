import CheatScript.CodeFile
import CheatScript.Proofs.ConditionLines
import CheatScript.Proofs.LineCounts
import CheatScript.Proofs.PatchLines
import CheatScript.Proofs.SplitText
import CheatScript.Proofs.TrimmedText
import Mathlib.Data.List.TakeWhile
import Mathlib.Tactic.Common

/-!
# Proofs: raw files and patch files have the same rows

Turning codes into patch lines works on the text anywhere in a line and in upper case only, while
the rows of a file are read off whole lines in either case and either form. Still no line gains or
loses a row. A code that fills its line becomes a patch line with the same halves. A line with
anything beside the code had no row, and gets none: behind its first byte a patch line has no `p`,
and no blank in it joins two digits.
-/

namespace CheatScript

namespace Patch

variable {l : CodeLine} {s : Bytes}

/-! ## Codes in a text -/

theorem exists_of_pairAt? {p : Bytes × Bytes} (h : pairAt? s = some p) :
    ∃ l : CodeLine, l.WellFormed ∧ ∃ rest, s = l.text ++ rest := by
  rw [pairAt?] at h
  split at h
  · next hpair =>
    obtain ⟨⟨⟨⟨hleft, hleftAll⟩, hblank⟩, hright⟩, hrightAll⟩ : (((((s.take 8).length = 8 ∧
        (s.take 8).all Byte.isUpperHex = true) ∧ s[8]? = some Byte.space) ∧
        ((s.drop 9).take 8).length = 8) ∧ ((s.drop 9).take 8).all Byte.isUpperHex = true) := by
      simpa only [Bool.and_eq_true, decide_eq_true_eq] using hpair
    refine ⟨⟨s.take 8, (s.drop 9).take 8⟩, ⟨⟨hleft, List.all_eq_true.1 hleftAll⟩,
      ⟨hright, List.all_eq_true.1 hrightAll⟩⟩, (s.drop 9).drop 8, ?_⟩
    have hlt : 8 < s.length := (List.getElem?_eq_some_iff.1 hblank).1
    have hdrop : s.drop 8 = Byte.space :: s.drop 9 := by
      rw [List.drop_eq_getElem_cons hlt, (List.getElem?_eq_some_iff.1 hblank).2]
    rw [CodeLine.text, List.append_assoc, List.cons_append, List.take_append_drop, ← hdrop,
      List.take_append_drop]
  · cases h

/-- A text is read from the left, a code or one byte at a time. -/
theorem codes_induction {motive : Bytes → Prop} (nil : motive [])
    (code : ∀ (l : CodeLine) (rest : Bytes), l.WellFormed → motive rest → motive (l.text ++ rest))
    (keep : ∀ (c : UInt8) (rest : Bytes), pairAt? (c :: rest) = none → motive rest →
      motive (c :: rest))
    (s : Bytes) : motive s := by
  induction hn : s.length using Nat.strongRecOn generalizing s with
  | ind n ih =>
    subst hn
    cases s with
    | nil => exact nil
    | cons c rest =>
      cases hpair : pairAt? (c :: rest) with
      | none => exact keep c rest hpair (ih _ (Nat.lt_succ_self _) rest rfl)
      | some p =>
        obtain ⟨l, hl, rest', hs⟩ := exists_of_pairAt? hpair
        have hshort : rest'.length < (c :: rest).length := by
          rw [hs, List.length_append, CodeLine.text, List.length_append, List.length_cons]
          omega
        rw [hs]
        exact code l rest' hl (ih _ hshort rest' rfl)

theorem ofCodes_keep {c : UInt8} (h : pairAt? (c :: s) = none) :
    ofCodes (c :: s) = c :: ofCodes s :=
  Bytes.edit_keep (by rw [h]; rfl)

/-- Either a text has no code, or the one that comes first becomes a patch line and what stands
before it stays. -/
theorem ofCodes_cases (s : Bytes) : ofCodes s = s ∨ ∃ (front : Bytes) (l : CodeLine) (back : Bytes),
    l.WellFormed ∧ s = front ++ (l.text ++ back) ∧
    ofCodes s = front ++ (ofLine l ++ ofCodes back) := by
  induction s using codes_induction with
  | nil => exact .inl rfl
  | code l rest hl ih => exact .inr ⟨[], l, rest, hl, rfl, ofCodes_text hl rest⟩
  | keep c rest hpair ih =>
    rw [ofCodes_keep hpair]
    rcases ih with hsame | ⟨front, l, back, hl, rfl, hcodes⟩
    · exact .inl (congrArg _ hsame)
    · exact .inr ⟨c :: front, l, back, hl, rfl, congrArg _ hcodes⟩

/-- The lines of the converted text are the converted lines. -/
theorem split_ofCodes (s : Bytes) :
    Bytes.split Byte.newline (ofCodes s) = (Bytes.split Byte.newline s).map ofCodes := by
  induction s using codes_induction with
  | nil => rfl
  | code l rest hl ih =>
    have hcodes : ∀ more, ofCodes (l.text ++ more) = ofLine l ++ ofCodes more := ofCodes_text hl
    rw [hcodes, Bytes.split_append_of_not_mem (newline_not_mem_ofLine hl),
      Bytes.split_append_of_not_mem hl.allDigits.newline_not_mem, ih]
    obtain ⟨piece, pieces, hrest⟩ :=
      List.exists_cons_of_ne_nil (Bytes.split_ne_nil Byte.newline rest)
    rw [hrest, List.modifyHead_cons, List.map_cons, List.map_cons, hcodes]
    rfl
  | keep c rest hpair ih =>
    rw [ofCodes_keep hpair]
    by_cases hc : c = Byte.newline
    · subst hc
      rw [Bytes.split_cons_self, Bytes.split_cons_self, ih]
      rfl
    · obtain ⟨piece, pieces, hrest⟩ :=
        List.exists_cons_of_ne_nil (Bytes.split_ne_nil Byte.newline rest)
      have hpiece : pairAt? (c :: piece) = none := by
        by_contra hcode
        obtain ⟨p, hp⟩ := Option.ne_none_iff_exists'.1 hcode
        obtain ⟨l, hl, more, hmore⟩ := exists_of_pairAt? hp
        rw [Bytes.eq_append_of_split hrest, ← List.cons_append, hmore, List.append_assoc,
          pairAt?_text hl] at hpair
        cases hpair
      rw [Bytes.split_cons_of_ne hc, Bytes.split_cons_of_ne hc, ih, hrest, List.modifyHead_cons,
        List.map_cons, List.map_cons, ofCodes_keep hpiece]
      rfl

/-! ## Blanks in a patch line -/

/-- The first letter of a patch line. -/
abbrev mark : UInt8 := 0x70

/-- Whether no blank in a text joins two hexadecimal digits, and no `p` is in it. -/
structure Unpaired (s : Bytes) : Prop where
  blank : ∀ a b, Byte.isHex a = true → Byte.isHex b = true → ¬ [a, Byte.space, b] <:+: s
  mark : mark ∉ s

/-- Whether a text is unpaired also behind a digit. -/
structure Fenced (s : Bytes) : Prop where
  unpaired : Unpaired s
  first : ∀ c ∈ (s.dropWhile Byte.isGap).head?, Byte.isHex c = false

/-- Whether a byte may stand in a word of a patch line behind its first letter. -/
def isPart (c : UInt8) : Bool := !Byte.isGap c && c != mark

/-- Whether a byte may stand between the words of a patch line. -/
def isSeparator (c : UInt8) : Bool := isPart c && !Byte.isHex c

theorem isPart_iff {c : UInt8} : isPart c = true ↔ ¬ Byte.isGap c = true ∧ c ≠ mark := by
  simp [isPart]

variable {u rest word : Bytes}

theorem Unpaired.nil : Unpaired [] where
  blank a b _ _ h := by cases List.infix_nil.1 h
  mark := List.not_mem_nil

theorem Unpaired.cons {c : UInt8} (h : Unpaired s) (hmark : c ≠ Patch.mark)
    (hc : Byte.isHex c = true → ∀ b rest, s = Byte.space :: b :: rest → Byte.isHex b = false) :
    Unpaired (c :: s) where
  mark := List.not_mem_cons_of_ne_of_not_mem (Ne.symm hmark) h.mark
  blank a b ha hb hinfix := by
    rcases List.infix_cons_iff.1 hinfix with ⟨rest, hrest⟩ | hinfix
    · obtain ⟨rfl, rfl⟩ := List.cons.inj hrest
      rw [hc ha b rest rfl] at hb
      cases hb
    · exact h.blank a b ha hb hinfix

/-- Bytes that are no digits may stand in front. -/
theorem Unpaired.append (h : Unpaired s) (hu : ∀ c ∈ u, Byte.isHex c = false ∧ c ≠ Patch.mark) :
    Unpaired (u ++ s) := by
  induction u with
  | nil => exact h
  | cons c u ih =>
    obtain ⟨⟨hhex, hmark⟩, hrest⟩ := List.forall_mem_cons.1 hu
    exact (ih hrest).cons hmark fun hc => by rw [hhex] at hc; cases hc

theorem not_isHex_of_isGap {c : UInt8} (h : Byte.isGap c = true) :
    Byte.isHex c = false ∧ c ≠ Patch.mark := by
  grind [Byte.isGap, Byte.isBlank, Byte.isHex, Byte.isDigit]

/-- A word may stand before a fenced text: no blank is in it, and the one behind it joins no
digits. -/
theorem Fenced.unpaired_append (h : Fenced s) (hu : ∀ c ∈ u, isPart c = true) :
    Unpaired (u ++ s) := by
  induction u with
  | nil => exact h.unpaired
  | cons c u ih =>
    obtain ⟨hpart, hrest⟩ := List.forall_mem_cons.1 hu
    refine (ih hrest).cons (isPart_iff.1 hpart).2 fun hc b rest hs => ?_
    cases u with
    | nil =>
      obtain rfl : s = Byte.space :: b :: rest := hs
      by_cases hgap : Byte.isGap b = true
      · exact (not_isHex_of_isGap hgap).1
      · refine h.first b ?_
        rw [List.dropWhile_cons_of_pos rfl, List.dropWhile_cons_of_neg hgap]
        rfl
    | cons d u =>
      obtain ⟨rfl, -⟩ := List.cons.inj hs
      cases hrest _ List.mem_cons_self

theorem Fenced.append_gaps (h : Fenced s) (hu : ∀ c ∈ u, Byte.isGap c = true) :
    Fenced (u ++ s) where
  unpaired := h.unpaired.append fun c hc => not_isHex_of_isGap (hu c hc)
  first := by
    rw [List.dropWhile_append_of_pos hu]
    exact h.first

theorem fenced_of_gaps (h : ∀ c ∈ s, Byte.isGap c = true) : Fenced s := by
  have hnil : Fenced [] := ⟨.nil, nofun⟩
  have happend := hnil.append_gaps h
  rwa [List.append_nil] at happend

theorem isPart_of_toLower {c : UInt8} (h : isPart (Byte.toLower c) = true) : isPart c = true := by
  grind [isPart, Byte.isGap, Byte.isBlank, Byte.toLower, Byte.isUpper]

theorem isHex_toLower (c : UInt8) : Byte.isHex (Byte.toLower c) = Byte.isHex c := by
  grind [Byte.isHex, Byte.isDigit, Byte.toLower, Byte.isUpper]

theorem isPart_of_map_toLower (h : (u.map Byte.toLower).all isPart = true) :
    ∀ c ∈ u, isPart c = true :=
  fun _ hc => isPart_of_toLower (List.all_eq_true.1 h _ (List.mem_map_of_mem hc))

theorem exists_of_afterWord? (h : afterWord? word s = some rest) :
    ∃ before front after, s = before ++ (front ++ (after ++ rest)) ∧
      (∀ c ∈ before, Byte.isGap c = true) ∧
      front.map Byte.toLower = word ∧ ∀ c ∈ after, Byte.isGap c = true := by
  obtain ⟨more, hmore, rfl⟩ := Option.map_eq_some_iff.1 h
  obtain ⟨front, hfront, hword⟩ := Bytes.afterFolded?_eq_some hmore
  refine ⟨s.takeWhile Byte.isGap, front, more.takeWhile Byte.isGap, ?_,
    fun c => List.mem_takeWhile_imp, hword, fun c => List.mem_takeWhile_imp⟩
  rw [List.takeWhile_append_dropWhile, ← hfront, List.takeWhile_append_dropWhile]

/-- What is unpaired behind a separator is fenced by it. -/
theorem Fenced.of_separator (h : afterWord? word s = some rest) (hrest : Unpaired rest)
    (hne : word ≠ []) (hword : word.all isSeparator = true) : Fenced s := by
  obtain ⟨before, front, after, rfl, hbefore, rfl, hafter⟩ := exists_of_afterWord? h
  have hfront : ∀ c ∈ front, isPart c = true ∧ Byte.isHex c = false := by
    intro c hc
    obtain ⟨hpart, hhex⟩ :=
      Bool.and_eq_true_iff.1 (List.all_eq_true.1 hword _ (List.mem_map_of_mem hc))
    rw [isHex_toLower, Bool.not_eq_true'] at hhex
    exact ⟨isPart_of_toLower hpart, hhex⟩
  refine Fenced.append_gaps ⟨?_, ?_⟩ hbefore
  · refine .append (.append hrest fun c hc => not_isHex_of_isGap (hafter c hc)) fun c hc => ?_
    obtain ⟨hpart, hhex⟩ := hfront c hc
    exact ⟨hhex, (isPart_iff.1 hpart).2⟩
  · cases front with
    | nil => exact absurd rfl hne
    | cons c front =>
      obtain ⟨hpart, hhex⟩ := hfront c List.mem_cons_self
      rw [List.cons_append, List.dropWhile_cons_of_neg (isPart_iff.1 hpart).1]
      rintro _ ⟨⟩
      exact hhex

theorem Unpaired.of_word (h : afterWord? word s = some rest) (hrest : Fenced rest)
    (hword : word.all isPart = true) : Unpaired s := by
  obtain ⟨before, front, after, rfl, hbefore, rfl, hafter⟩ := exists_of_afterWord? h
  have hfront := (hrest.append_gaps hafter).unpaired_append (isPart_of_map_toLower hword)
  exact hfront.append fun c hc => not_isHex_of_isGap (hbefore c hc)

theorem Unpaired.of_half {p : Bytes × Bytes} (h : half? s = some p) (hrest : Fenced p.2) :
    Unpaired s := by
  rw [half?] at h
  split at h
  · next hdigits =>
    obtain rfl := Option.some.inj h
    have hhex : (s.take 8).all Byte.isHex = true := (Bool.and_eq_true_iff.1 hdigits).2
    have happend := hrest.unpaired_append (u := s.take 8) fun c hc => by
      have hdigit := List.all_eq_true.1 hhex c hc
      grind [isPart, Byte.isGap, Byte.isBlank, Byte.isHex, Byte.isDigit]
    rwa [List.take_append_drop] at happend
  · cases h

theorem Unpaired.of_number (h : afterNumber? s = some rest) (hrest : Fenced rest) : Unpaired s := by
  rw [afterNumber?] at h
  split at h
  · obtain rfl := Option.some.inj h
    have happend := hrest.unpaired_append (u := s.takeWhile Byte.isDigit) fun c hc => by
      have hdigit := List.mem_takeWhile_imp hc
      grind [isPart, Byte.isGap, Byte.isBlank, Byte.isDigit]
    rwa [List.takeWhile_append_dropWhile] at happend
  · cases h

/-- A patch line starts with a letter that is no digit, and what follows is unpaired. -/
theorem exists_of_pair? {text : Bytes} {p : Bytes × Bytes} (h : pair? text = some p) :
    ∃ c rest, Space.trim text = c :: rest ∧ Byte.isHex c = false ∧ Unpaired rest := by
  simp only [pair?, Option.bind_eq_bind, Option.bind_eq_some_iff] at h
  obtain ⟨s₁, hpatch, s₂, hequals, s₃, hnumber, s₄, hcomma₁, s₅, hee, s₆, hcomma₂, left, hleft, s₇,
    hcomma₃, s₈, hextended, s₉, hcomma₄, right, hright, hend⟩ := h
  have hgaps : ∀ c ∈ right.2, Byte.isGap c = true := by
    split at hend
    · next hempty =>
      exact List.dropWhile_eq_nil_iff.1 (List.isEmpty_iff.1 hempty)
    · cases hend
  have hcomma {s rest : Bytes} (h : afterWord? (ascii ",") s = some rest) (hrest : Unpaired rest) :
      Fenced s := .of_separator h hrest (by decide) rfl
  -- The parts are gone through from the end of the line to its start.
  have h₉ : Unpaired s₉ := .of_half hright (fenced_of_gaps hgaps)
  have h₇ : Unpaired s₇ := .of_word hextended (hcomma hcomma₄ h₉) rfl
  have h₆ : Unpaired s₆ := .of_half hleft (hcomma hcomma₃ h₇)
  have h₄ : Unpaired s₄ := .of_word hee (hcomma hcomma₂ h₆) rfl
  have h₂ : Unpaired s₂ := .of_number hnumber (hcomma hcomma₁ h₄)
  have h₁ : Fenced s₁ := .of_separator hequals h₂ (by decide) rfl
  obtain ⟨front, htext, hfront⟩ := Bytes.afterFolded?_eq_some hpatch
  cases front with
  | nil => cases hfront
  | cons c front =>
    obtain ⟨hc, hfront⟩ := List.cons.inj hfront
    refine ⟨c, front ++ s₁, htext, ?_, h₁.unpaired_append (isPart_of_map_toLower ?_)⟩
    · rw [← isHex_toLower, hc]
      rfl
    · rw [hfront]
      rfl

/-! ## Codes and what stands beside them -/

theorem solidEnds_code (h : l.WellFormed) : Space.SolidEnds l.text where
  ne := List.append_ne_nil_of_right_ne_nil _ (List.cons_ne_nil _ _)
  head := by
    obtain ⟨c, rest, hleft, hc⟩ := h.left.head_of_pos
    rw [CodeLine.text, hleft]
    rintro _ ⟨⟩
    exact Byte.isSolid_of_isUpperHex hc
  last := by
    rw [CodeLine.text, List.append_cons]
    exact h.right.isSolid_getLast

/-- A text is white space exactly if it is so with its codes as patch lines. -/
theorem trimEnd_ofCodes (s : Bytes) : Space.trimEnd (ofCodes s) = [] ↔ Space.trimEnd s = [] := by
  rcases ofCodes_cases s with hsame | ⟨front, l, back, hl, hs, hcodes⟩
  · rw [hsame]
  · have hcode := solidEnds_code hl
    have hpatch := solidEnds_ofLine hl
    rw [hcodes, hs, hcode.trimEnd_append, hpatch.trimEnd_append]
    simp [hcode.ne, hpatch.ne]

theorem infix_code (h : l.WellFormed) :
    ∃ a b, Byte.isHex a = true ∧ Byte.isHex b = true ∧ [a, Byte.space, b] <:+: l.text := by
  obtain ⟨b, rest, hright, hb⟩ := h.right.head_of_pos
  rcases List.eq_nil_or_concat l.left with hleft | ⟨init, a, hleft⟩
  · have hlength := h.left.1
    rw [hleft] at hlength
    cases hlength
  · rw [List.concat_eq_append] at hleft
    have ha : Byte.isUpperHex a = true := h.left.2 a (by simp [hleft])
    refine ⟨a, b, Byte.isHex_of_isUpperHex ha, Byte.isHex_of_isUpperHex hb, init, rest, ?_⟩
    simp [CodeLine.text, hleft, hright]

/-- A text with a code in it is no patch line, since the blank of the code joins two digits. -/
theorem pair?_code (h : l.WellFormed) (front back : Bytes) :
    pair? (front ++ (l.text ++ back)) = none := by
  by_contra hsome
  obtain ⟨p, hp⟩ := Option.ne_none_iff_exists'.1 hsome
  obtain ⟨c, rest, htrim, hc, hrest⟩ := exists_of_pair? hp
  obtain ⟨a, b, ha, hb, hinfix⟩ := infix_code h
  rw [(solidEnds_code h).trim_append] at htrim
  have hline : [a, Byte.space, b] <:+: c :: rest := htrim ▸ hinfix.trans (List.infix_append' _ _ _)
  rcases List.infix_cons_iff.1 hline with ⟨more, hmore⟩ | hinfix
  · obtain ⟨rfl, -⟩ := List.cons.inj hmore
    rw [ha] at hc
    cases hc
  · exact hrest.blank a b ha hb hinfix

/-- Nothing may stand beside a patch line: its first letter is not found again behind it. -/
theorem pair?_patch (h : l.WellFormed) (front back : Bytes) : pair? (front ++ (ofLine l ++ back)) =
    if Space.trimStart front = [] ∧ Space.trimEnd back = [] then
    some (l.left, l.right) else none := by
  have htrim := (solidEnds_ofLine h).trim_append front back
  cases hfront : Space.trimStart front with
  | nil =>
    rw [hfront, List.nil_append] at htrim
    have hgaps : ((Space.trimEnd back).dropWhile Byte.isGap).isEmpty = true ↔
        Space.trimEnd back = [] := by
      rw [List.isEmpty_iff, List.dropWhile_eq_nil_iff]
      constructor
      · intro hgap
        rw [← Space.trimEnd_trimEnd]
        exact Space.trimEnd_of_blanks fun c hc => (Bool.and_eq_true_iff.1 (hgap c hc)).1
      · intro hnil
        rw [hnil]
        exact fun c hc => absurd hc List.not_mem_nil
    rw [pair?_of_trim h htrim]
    simp only [hgaps, true_and]
  | cons c rest =>
    rw [if_neg fun hnil => List.cons_ne_nil _ _ hnil.1]
    by_contra hsome
    obtain ⟨p, hp⟩ := Option.ne_none_iff_exists'.1 hsome
    obtain ⟨d, tail, hd, -, hrest⟩ := exists_of_pair? hp
    rw [htrim, hfront] at hd
    obtain ⟨rfl, rfl⟩ := List.cons.inj hd
    exact hrest.mark (List.mem_append_right _ (List.mem_append_left _ List.mem_cons_self))

end Patch

namespace CodeFile

open Patch

variable {l : CodeLine} {front back : Bytes}

theorem length_of_isCodeLine {s : Bytes} (h : isCodeLine s = true) : s.length = 17 := by
  rw [isCodeLine] at h
  simp only [Bool.and_eq_true, beq_iff_eq] at h
  exact h.1.1.1

theorem isCodeLine_text (h : l.WellFormed) :
    isCodeLine l.text = true ∧ l.text.take 8 = l.left ∧ l.text.drop 9 = l.right := by
  have htake : l.text.take 8 = l.left := List.take_left' h.left.1
  have hblank : l.text[8]? = some Byte.space := by
    rw [CodeLine.text, List.getElem?_append_right (Nat.le_of_eq h.left.1), h.left.1]
    rfl
  have hdrop : l.text.drop 9 = l.right := by
    rw [CodeLine.text, List.append_cons]
    exact List.drop_left' (by rw [List.length_append, h.left.1]; rfl)
  have hlength : l.text.length = 17 := by
    rw [CodeLine.text, List.length_append, List.length_cons, h.left.1, h.right.1]
  refine ⟨?_, htake, hdrop⟩
  rw [isCodeLine, hlength, htake, hblank, hdrop, h.left.all_isHex, h.right.all_isHex]
  rfl

theorem halves?_code (h : l.WellFormed) (front back : Bytes) : halves? (front ++ (l.text ++ back)) =
    if front = [] ∧ back = [] then some (l.left, l.right) else none := by
  rw [halves?, pair?_code h, Option.none_or]
  by_cases hnil : front = [] ∧ back = []
  · obtain ⟨rfl, rfl⟩ := hnil
    obtain ⟨hcode, hleft, hright⟩ := isCodeLine_text h
    rw [List.nil_append, List.append_nil, if_pos hcode, hleft, hright, if_pos ⟨rfl, rfl⟩]
  · rw [if_neg hnil, if_neg fun hcode => hnil ?_]
    have hlength := length_of_isCodeLine hcode
    rw [List.length_append, List.length_append,
      length_of_isCodeLine (isCodeLine_text h).1] at hlength
    exact ⟨List.length_eq_zero_iff.1 (by omega), List.length_eq_zero_iff.1 (by omega)⟩

/-- A text with a patch line in it is too long for a code line. -/
theorem isCodeLine_patch (h : l.WellFormed) (front back : Bytes) :
    isCodeLine (front ++ (ofLine l ++ back)) = false := by
  by_contra hcode
  have hlength := length_of_isCodeLine (Bool.eq_true_of_not_eq_false hcode)
  have hline : (ofLine l).length = 37 := by
    rw [ofLine, line, List.length_append, List.length_append, List.length_append, h.left.1,
      h.right.1]
    rfl
  rw [List.length_append, List.length_append, hline] at hlength
  omega

theorem halves?_patch (h : l.WellFormed) (front back : Bytes) :
    halves? (front ++ (ofLine l ++ back)) =
    if Space.trimStart front = [] ∧ Space.trimEnd back = [] then
    some (l.left, l.right) else none := by
  rw [halves?, isCodeLine_patch h, if_neg Bool.false_ne_true, Option.or_none, pair?_patch h]

/-- A line keeps its halves when the codes in it become patch lines, and it stays blank or not. -/
theorem halves?_ofCodes (s : Bytes) : halves? (Space.trim (ofCodes s)) = halves? (Space.trim s) ∧
    (Space.trim (ofCodes s)).isEmpty = (Space.trim s).isEmpty := by
  rcases ofCodes_cases s with hsame | ⟨front, l, back, hl, hs, hcodes⟩
  · rw [hsame]
    exact ⟨rfl, rfl⟩
  · have hcode := solidEnds_code hl
    have hpatch := solidEnds_ofLine hl
    rw [hcodes, hs, hcode.trim_append, hpatch.trim_append, halves?_patch hl, halves?_code hl,
      Space.trimStart_trimStart, Space.trimEnd_trimEnd]
    have hsolid : ∀ {part : Bytes} (z y : Bytes), Space.SolidEnds part →
        (z ++ (part ++ y)).isEmpty = false :=
      fun z y h => List.isEmpty_eq_false_iff.2 <|
        List.append_ne_nil_of_right_ne_nil z (List.append_ne_nil_of_left_ne_nil h.ne y)
    rw [hsolid _ _ hpatch, hsolid _ _ hcode]
    simp only [trimEnd_ofCodes, and_self]

theorem row?_congr {s t : Bytes} (h : halves? s = halves? t) : row? s = row? t := by
  rw [row?, row?, words?, words?, h]

theorem map_row?_lines_ofCodes (s : Bytes) : (lines (ofCodes s)).map row? = (lines s).map row? := by
  rw [lines, lines, split_ofCodes]
  induction Bytes.split Byte.newline s with
  | nil => rfl
  | cons l rest ih =>
    obtain ⟨hhalves, hempty⟩ := halves?_ofCodes l
    rw [List.map_cons, List.map_cons, List.map_cons, List.filter_cons, List.filter_cons, hempty]
    split
    · rw [List.map_cons, List.map_cons, ih, row?_congr hhalves]
    · exact ih

/-- A file has the same rows, and as many lines without one, when its codes become patch lines. -/
theorem rows_ofCodes (s : Bytes) : rows (ofCodes s) = rows s ∧ skipped (ofCodes s) = skipped s := by
  have hmap := map_row?_lines_ofCodes s
  have hrows : ∀ source, rows source = ((lines source).map row?).filterMap id := by
    intro source
    rw [rows, List.filterMap_map]
    rfl
  have hskipped : ∀ source, skipped source = ((lines source).map row?).countP Option.isNone := by
    intro source
    rw [skipped, List.countP_map, List.countP_eq_length_filter]
    rfl
  rw [hrows, hrows, hskipped, hskipped, hmap]
  exact ⟨rfl, rfl⟩

end CodeFile

end CheatScript
