import CheatScript.Proofs.ArgumentLists

/-!
# Proofs: upper case beyond ASCII

Names are compared in upper case, and a text with bytes beyond ASCII is read as UTF-8 for that. A
sequence of such bytes never stands for an ASCII character, and the upper-case form of a character
beyond ASCII lies in ASCII for two characters only. So a text has an ASCII form without `I` and `S`
only if it is ASCII itself.
-/

namespace CheatScript

/-! ## Characters beyond ASCII -/

theorem toNat_ofNat_of_isValidChar {n : Nat} (h : n.isValidChar) : (Char.ofNat n).toNat = n := by
  rw [Char.ofNat, dif_pos h]
  rfl

namespace Utf8

theorem isTail_bounds {b : UInt8} (h : isTail b = true) : 0x80 ≤ b.toNat ∧ b.toNat ≤ 0xBF := by
  simpa [isTail, UInt8.le_iff_toNat_le] using h

theorem isSecondOfThree_bounds {a b : UInt8} (h : isSecondOfThree a b = true) :
    0x80 ≤ b.toNat ∧ b.toNat ≤ 0xBF ∧ (a.toNat = 0xE0 → 0xA0 ≤ b.toNat) ∧
      (a.toNat = 0xED → b.toNat ≤ 0x9F) := by
  simp only [isSecondOfThree, isTail, ← UInt8.toNat_inj, UInt8.le_iff_toNat_le,
    UInt8.reduceToNat] at h
  split at h
  · simp only [Bool.and_eq_true, decide_eq_true_eq] at h
    omega
  · split at h
    · simp only [Bool.and_eq_true, decide_eq_true_eq] at h
      omega
    · simp only [Bool.and_eq_true, decide_eq_true_eq] at h
      omega

theorem isSecondOfFour_bounds {a b : UInt8} (h : isSecondOfFour a b = true) :
    0x80 ≤ b.toNat ∧ b.toNat ≤ 0xBF ∧ (a.toNat = 0xF0 → 0x90 ≤ b.toNat) ∧
      (a.toNat = 0xF4 → b.toNat ≤ 0x8F) := by
  simp only [isSecondOfFour, isTail, ← UInt8.toNat_inj, UInt8.le_iff_toNat_le,
    UInt8.reduceToNat] at h
  split at h
  · simp only [Bool.and_eq_true, decide_eq_true_eq] at h
    omega
  · split at h
    · simp only [Bool.and_eq_true, decide_eq_true_eq] at h
      omega
    · simp only [Bool.and_eq_true, decide_eq_true_eq] at h
      omega

/-- A sequence that does not start with an ASCII byte stands for no ASCII character. -/
theorem le_toNat_of_lead? {a : UInt8} {s : Bytes} {c : Char} {n : Nat} (ha : ¬ a < 0x80)
    (h : lead? a s = some (c, n)) : 0x80 ≤ c.toNat := by
  -- in each form the leading byte and the one after it give the lower bound
  have hchar : ∀ v : Nat, v.isValidChar → 0x80 ≤ v → Char.ofNat v = c → 0x80 ≤ c.toNat := by
    rintro v hvalid hv rfl
    rwa [toNat_ofNat_of_isValidChar hvalid]
  unfold lead? at h
  rw [if_neg ha] at h
  simp only [Bool.and_eq_true, decide_eq_true_eq, UInt8.le_iff_toNat_le, UInt8.reduceToNat,
    payload] at h
  split at h
  · next htwo =>
    split at h
    · split at h
      · next b _ hb =>
        have hb := isTail_bounds hb
        exact hchar _ (.inl (by omega)) (by omega) (Prod.mk.inj (Option.some.inj h)).1
      · cases h
    · cases h
  · split at h
    · next hthree =>
      split at h
      · split at h
        · next b d _ hbd =>
          have hb := isSecondOfThree_bounds hbd.1
          have hd := isTail_bounds hbd.2
          refine hchar _ ?_ (by omega) (Prod.mk.inj (Option.some.inj h)).1
          rw [Nat.isValidChar]
          omega
        · cases h
      · cases h
    · split at h
      · next hfour =>
        split at h
        · split at h
          · next b d e _ hbde =>
            have hb := isSecondOfFour_bounds hbde.1.1
            have hd := isTail_bounds hbde.1.2
            have he := isTail_bounds hbde.2
            refine hchar _ ?_ (by omega) (Prod.mk.inj (Option.some.inj h)).1
            rw [Nat.isValidChar]
            omega
          · cases h
        · cases h
      · cases h

theorem isAscii_of_decode {s : Bytes} (h : ∀ c ∈ decode s, c.toNat < 0x80) :
    Bytes.isAscii s = true := by
  induction s with
  | nil => rfl
  | cons a s ih =>
    rw [decode, units, unitsFrom] at h
    have ha : a < 0x80 := by
      by_contra hlarge
      cases hlead : lead? a s with
      | none =>
        rw [hlead] at h
        exact absurd (h replacement List.mem_cons_self) (by decide)
      | some first =>
        obtain ⟨c, n⟩ := first
        rw [hlead] at h
        have hc := h c List.mem_cons_self
        have hlow := le_toNat_of_lead? hlarge hlead
        omega
    have hlead : lead? a s = some (Byte.char a, 0) := if_pos ha
    rw [hlead] at h
    have hs := ih fun c hc => h c (List.mem_cons_of_mem _ hc)
    simpa [Bytes.isAscii, ha] using hs

/-- A character beyond ASCII is written with no ASCII byte in front. -/
theorem exists_mem_utf8EncodeChar {c : Char} (h : 0x80 ≤ c.toNat) :
    ∃ b ∈ String.utf8EncodeChar c, ¬ b < 0x80 := by
  have hlarge : ∀ n : Nat, 0x80 ≤ n → n < 0x100 → ¬ UInt8.ofNat n < 0x80 := by
    intro n hlow hhigh
    rw [UInt8.lt_iff_toNat_lt, UInt8.toNat_ofNat_of_lt' hhigh]
    exact Nat.not_lt.2 hlow
  have hc : ¬ c.val.toNat ≤ 127 := Nat.not_le.2 h
  unfold String.utf8EncodeChar
  simp only [if_neg hc]
  split
  · exact ⟨_, List.mem_cons_self, hlarge _ (by omega) (by omega)⟩
  · split
    · exact ⟨_, List.mem_cons_self, hlarge _ (by omega) (by omega)⟩
    · exact ⟨_, List.mem_cons_self, hlarge _ (by omega) (by omega)⟩

end Utf8

/-! ## Upper case -/

set_option maxRecDepth 16000 in
/-- The upper-case forms that lie in ASCII are those of the dotless i and of the long s. -/
theorem caseRuns_small : caseRuns.all (fun r => decide (0x80 ≤ (r.first : Int) + r.shift) ||
    (r.first == r.last && (decide ((r.first : Int) + r.shift = 0x49) ||
      decide ((r.first : Int) + r.shift = 0x53)))) = true := by decide

theorem toNat_upperChar {c : Char} (h : 0x80 ≤ c.toNat) :
    0x80 ≤ (upperChar c).toNat ∨ (upperChar c).toNat ∈ [0, 0x49, 0x53] := by
  unfold upperChar
  rw [if_neg (Nat.not_lt.2 h)]
  split
  · next r hr =>
    have hrow := List.all_eq_true.1 caseRuns_small r (List.mem_of_find?_eq_some hr)
    have hholds := List.find?_some hr
    simp only [CaseRun.holds, Bool.and_eq_true, decide_eq_true_eq] at hholds
    obtain ⟨⟨hfirst, hlast⟩, -⟩ := hholds
    simp only [Bool.or_eq_true, Bool.and_eq_true, decide_eq_true_eq, beq_iff_eq] at hrow
    by_cases hvalid : ((c.toNat : Int) + r.shift).toNat.isValidChar
    · rw [toNat_ofNat_of_isValidChar hvalid]
      simp only [List.mem_cons, List.not_mem_nil, or_false]
      omega
    · refine .inr ?_
      rw [Char.ofNat, dif_neg hvalid]
      decide
  · exact .inl h

/-- A text is ASCII if its upper-case form is and has none of the bytes that other characters
give. -/
theorem isAscii_of_upper {s : Bytes} (h : ∀ b ∈ Bytes.upper s, b < 0x80 ∧ b ∉ [0, 0x49, 0x53]) :
    Bytes.isAscii s = true := by
  by_contra hnot
  rw [Bytes.upper, if_neg hnot] at h
  refine hnot (Utf8.isAscii_of_decode fun c hc => ?_)
  have hmem : ∀ b ∈ String.utf8EncodeChar (upperChar c), b < 0x80 ∧ b ∉ [0, 0x49, 0x53] :=
    fun b hb => h b (List.mem_flatMap.2 ⟨_, List.mem_map_of_mem hc, hb⟩)
  by_contra hlarge
  rcases toNat_upperChar (Nat.not_lt.1 hlarge) with hupper | hupper
  · obtain ⟨b, hb, hbound⟩ := Utf8.exists_mem_utf8EncodeChar hupper
    exact hbound (hmem b hb).1
  · have hsmall : ∀ n ∈ [0, 0x49, 0x53], n ≤ 127 ∧ UInt8.ofNat n ∈ [0, 0x49, 0x53] := by decide
    obtain ⟨hone, hbyte⟩ := hsmall _ hupper
    have hbytes : String.utf8EncodeChar (upperChar c) = [UInt8.ofNat (upperChar c).toNat] := by
      rw [String.utf8EncodeChar]
      exact if_pos hone
    rw [hbytes] at hmem
    exact (hmem _ List.mem_cons_self).2 hbyte

end CheatScript
