import CheatScript.Patch
import CheatScript.Proofs.CodeLines
import CheatScript.Proofs.PrintedLines

/-!
# Proofs: patch lines

Codes that are written as patch lines lose nothing: each code line becomes the patch line of its
halves, and reading the patch lines gives the code lines back.
-/

namespace CheatScript

variable {l : CodeLine} {lines : List CodeLine}

theorem Byte.isUpperHex_bounds {c : UInt8} (h : isUpperHex c = true) : 0x30 ≤ c ∧ c ≤ 0x46 := by
  grind [isUpperHex, isDigit]

theorem Byte.isHex_of_isUpperHex {c : UInt8} (h : isUpperHex c = true) : isHex c = true := by
  grind [isHex, isUpperHex]

theorem Byte.isSolid_of_isUpperHex {c : UInt8} (h : isUpperHex c = true) : isSolid c = true := by
  have hbounds := isUpperHex_bounds h
  grind [isSolid, isBlank]

theorem Digits.head_of_pos {n : Nat} {s : Bytes} (h : Digits (n + 1) s) :
    ∃ c rest, s = c :: rest ∧ Byte.isUpperHex c = true := by
  obtain ⟨hlen, hall⟩ := h
  cases s with
  | nil => cases hlen
  | cons c rest => exact ⟨c, rest, rfl, hall c List.mem_cons_self⟩

theorem Digits.all_isHex {n : Nat} {s : Bytes} (h : Digits n s) : s.all Byte.isHex = true :=
  List.all_eq_true.2 fun c hc => Byte.isHex_of_isUpperHex (h.2 c hc)

theorem Digits.isSolid_getLast {n : Nat} {s t : Bytes} (h : Digits (n + 1) t) :
    ∀ c ∈ (s ++ t).getLast?, Byte.isSolid c = true := by
  intro c hc
  have hne : t ≠ [] := by
    rintro rfl
    cases h.1
  rw [List.getLast?_append_of_ne_nil _ hne] at hc
  exact Byte.isSolid_of_isUpperHex (h.2 c (List.mem_of_getLast? hc))

/-! ## To patch lines -/

theorem Bytes.dropTail_of_last {c : UInt8} {s : Bytes} (h : ∀ a ∈ s.getLast?, a ≠ c) :
    dropTail [c] s = s := by
  unfold dropTail before?
  cases hrev : s.reverse with
  | nil => rfl
  | cons a t =>
    have hlast : s.getLast? = some a := by
      rw [← List.head?_reverse, hrev]
      rfl
    have hne := h a hlast
    simp [after?, Ne.symm hne]

namespace Patch

theorem pairAt?_text (h : l.WellFormed) (rest : Bytes) :
    pairAt? (l.text ++ rest) = some (l.left, l.right) := by
  obtain ⟨left, right⟩ := l
  obtain ⟨⟨hleft, hleftAll⟩, ⟨hright, hrightAll⟩⟩ := h
  have hsplit : CodeLine.text ⟨left, right⟩ ++ rest = left ++ Byte.space :: (right ++ rest) := by
    rw [CodeLine.text, List.append_assoc, List.cons_append]
  have htake : (left ++ Byte.space :: (right ++ rest)).take 8 = left := List.take_left' hleft
  have hblank : (left ++ Byte.space :: (right ++ rest))[8]? = some Byte.space := by
    rw [List.getElem?_append_right (Nat.le_of_eq hleft), hleft]
    rfl
  have hdrop : ((left ++ Byte.space :: (right ++ rest)).drop 9).take 8 = right := by
    rw [← List.drop_drop (i := 1) (j := 8), List.drop_left' hleft]
    exact List.take_left' hright
  rw [hsplit, pairAt?]
  simp only [htake, hblank, hdrop]
  rw [if_pos]
  simp only [hleft, hright, List.all_eq_true.2 hleftAll, List.all_eq_true.2 hrightAll]
  rfl

theorem pairAt?_newline (s : Bytes) : pairAt? (Byte.newline :: s) = none := by
  have hfalse : ((Byte.newline :: s).take 8).all Byte.isUpperHex = false := rfl
  rw [pairAt?]
  simp only [hfalse]
  simp

/-- Turning a text to patch lines starts with its first code line. -/
theorem ofCodes_text (h : l.WellFormed) (rest : Bytes) :
    ofCodes (l.text ++ rest) = line l.left l.right ++ ofCodes rest := by
  have hlen : l.text.length = 17 := by
    rw [CodeLine.text, List.length_append, List.length_cons, h.left.1, h.right.1]
  obtain ⟨c, s, htext⟩ := List.exists_cons_of_length_eq_add_one hlen
  have hpair := pairAt?_text h rest
  have hdrop : (s ++ rest).drop 16 = rest := by
    refine List.drop_left' ?_
    rw [htext, List.length_cons] at hlen
    omega
  rw [htext, List.cons_append] at hpair ⊢
  rw [ofCodes, Bytes.edit, Bytes.editFrom, hpair]
  simp only [Option.map_some]
  rw [Bytes.editFrom_skip, hdrop]
  rfl

theorem ofCodes_newline (rest : Bytes) :
    ofCodes (Byte.newline :: rest) = Byte.newline :: ofCodes rest := by
  rw [ofCodes, Bytes.edit, Bytes.editFrom, pairAt?_newline]
  rfl

/-- The patch line of a code line. -/
def ofLine (l : CodeLine) : Bytes := line l.left l.right

/-- Each code line of a text becomes a patch line. -/
theorem ofCodes_lines (h : ∀ l ∈ lines, l.WellFormed) :
    ofCodes (Bytes.join [Byte.newline] (lines.map CodeLine.text)) =
      Bytes.join [Byte.newline] (lines.map ofLine) := by
  have hrest : ∀ more : List CodeLine, (∀ l ∈ more, l.WellFormed) →
      ofCodes ((more.map CodeLine.text).flatMap (Byte.newline :: ·)) =
        (more.map ofLine).flatMap (Byte.newline :: ·) := by
    intro more hmore
    induction more with
    | nil => rfl
    | cons l more ih =>
      rw [List.map_cons, List.map_cons, List.flatMap_cons, List.flatMap_cons, List.cons_append,
        ofCodes_newline, ofCodes_text (hmore l List.mem_cons_self),
        ih fun l hl => hmore l (List.mem_cons_of_mem _ hl)]
      rfl
  cases lines with
  | nil => rfl
  | cons l lines =>
    rw [List.map_cons, List.map_cons, Bytes.join_cons, Bytes.join_cons,
      ofCodes_text (h l List.mem_cons_self), hrest lines fun l hl =>
        h l (List.mem_cons_of_mem _ hl)]
    rfl

/-! ## Back to codes -/

theorem dropWhile_isGap {s : Bytes} (h : Digits 8 s) (rest : Bytes) :
    (s ++ rest).dropWhile Byte.isGap = s ++ rest := by
  obtain ⟨c, s, rfl, hc⟩ := h.head_of_pos
  have hgap : Byte.isGap c = false := by
    have hbounds := Byte.isUpperHex_bounds hc
    grind [Byte.isGap, Byte.isBlank]
  rw [List.cons_append, List.dropWhile_cons_of_neg (by simp [hgap])]

theorem half?_digits {s : Bytes} (h : Digits 8 s) (rest : Bytes) :
    half? (s ++ rest) = some (s, rest) := by
  have htake : (s ++ rest).take 8 = s := List.take_left' h.1
  have hdrop : (s ++ rest).drop 8 = rest := List.drop_left' h.1
  have hhex := h.all_isHex
  have hupper : s.map Byte.toUpper = s := by
    have hsame : ∀ c ∈ s, Byte.toUpper c = id c := by
      intro c hc
      have hbounds := Byte.isUpperHex_bounds (h.2 c hc)
      grind [Byte.toUpper, Byte.isLower]
    rw [List.map_congr_left hsame, List.map_id]
  rw [half?]
  simp only [htake, hdrop, hhex, hupper, h.1]
  rfl

/-- The halves of a patch line are read off it, if nothing but blanks stands behind. -/
theorem pair?_of_trim {text rest : Bytes} (h : l.WellFormed)
    (htrim : Space.trim text = ofLine l ++ rest) :
    pair? text = if (rest.dropWhile Byte.isGap).isEmpty then some (l.left, l.right) else none := by
  obtain ⟨left, right⟩ := l
  obtain ⟨hleft, hright⟩ := h
  have hline : ofLine ⟨left, right⟩ ++ rest =
      ascii "patch=1,EE," ++ (left ++ (ascii ",extended," ++ (right ++ rest))) := by
    simp only [ofLine, line, List.append_assoc]
  have hcommaLeft :
      afterWord? (ascii ",") (ascii "," ++ (left ++ (ascii ",extended," ++ (right ++ rest)))) =
      some (left ++ (ascii ",extended," ++ (right ++ rest))) :=
    congrArg some (dropWhile_isGap hleft _)
  have hcommaRight : afterWord? (ascii ",") (ascii "," ++ (right ++ rest)) = some (right ++ rest) :=
    congrArg some (dropWhile_isGap hright _)
  calc pair? text
      = (afterWord? (ascii ",")
            (ascii "," ++ (left ++ (ascii ",extended," ++ (right ++ rest))))).bind fun s =>
          (half? s).bind fun p => (afterWord? (ascii ",") p.2).bind fun s =>
            (afterWord? (ascii "extended") s).bind fun s => (afterWord? (ascii ",") s).bind fun s =>
              (half? s).bind fun q =>
                if (q.2.dropWhile Byte.isGap).isEmpty then some (p.1, q.1) else none := by
        rw [pair?, htrim, hline]
        rfl
    _ = (afterWord? (ascii ",") (ascii "," ++ (right ++ rest))).bind fun s =>
          (half? s).bind fun q =>
            if (q.2.dropWhile Byte.isGap).isEmpty then some (left, q.1) else none := by
        rw [hcommaLeft, Option.bind_some, half?_digits hleft]
        rfl
    _ = if (rest.dropWhile Byte.isGap).isEmpty then some (left, right) else none := by
        rw [hcommaRight, Option.bind_some, half?_digits hright]
        rfl

theorem solidEnds_ofLine (h : l.WellFormed) : Space.SolidEnds (ofLine l) where
  ne := List.cons_ne_nil _ _
  head := by
    rintro _ ⟨⟩
    rfl
  last := h.right.isSolid_getLast

theorem pair?_ofLine (h : l.WellFormed) : pair? (ofLine l) = some (l.left, l.right) :=
  pair?_of_trim h (by rw [(solidEnds_ofLine h).trim_eq, List.append_nil])

theorem newline_not_mem_ofLine (h : l.WellFormed) : Byte.newline ∉ ofLine l := by
  have hdigits : ∀ {s : Bytes}, Digits 8 s → Byte.newline ∉ s := by
    intro s hs hmem
    exact absurd (hs.2 _ hmem) (by decide)
  intro hmem
  simp only [ofLine, line, List.mem_append] at hmem
  rcases hmem with ((hmem | hmem) | hmem) | hmem
  · exact absurd hmem (by decide)
  · exact hdigits h.left hmem
  · exact absurd hmem (by decide)
  · exact hdigits h.right hmem

theorem dropTail_ofLine (h : l.WellFormed) :
    Bytes.dropTail [Byte.carriage] (ofLine l) = ofLine l := by
  refine Bytes.dropTail_of_last fun c hc => ?_
  rintro rfl
  exact absurd (h.right.isSolid_getLast _ hc) (by decide)

/-- Reading patch lines gives the code lines they were made of. -/
theorem toCodes_lines (h : ∀ l ∈ lines, l.WellFormed) :
    toCodes (Bytes.join [Byte.newline] (lines.map ofLine)) =
      Bytes.join [Byte.newline] (lines.map CodeLine.text) := by
  cases lines with
  | nil => rfl
  | cons first rest =>
    have hfree : ∀ s ∈ (first :: rest).map ofLine, Byte.newline ∉ s := by
      intro s hs
      obtain ⟨l, hl, rfl⟩ := List.mem_map.1 hs
      exact newline_not_mem_ofLine (h l hl)
    have hsplit := Bytes.split_join (List.map_eq_nil_iff.not.2 (List.cons_ne_nil first rest)) hfree
    rw [toCodes, hsplit, List.map_map]
    refine congrArg (Bytes.join [Byte.newline]) (List.map_congr_left fun l hl => ?_)
    rw [Function.comp_apply, dropTail_ofLine (h l hl), pair?_ofLine (h l hl)]
    rfl

end Patch

end CheatScript
