import CheatScript.Argument
import Mathlib.Data.Nat.Digits.Defs
import Mathlib.Tactic.Ring

/-!
# Proofs: numerals are read back

What is written as hexadecimal or decimal digits is read as the number it was written for. The
writers go from the last digit to the first and the reader from the first to the last, so the facts
about reading start from any value of the digits before. Digits that nobody has written, of a
literal in a script, are read as the number that they spell, unless that passes the limit.
-/

namespace CheatScript

namespace Numeral

theorem readFrom_append (base limit acc : Nat) (s t : Bytes) :
    readFrom base limit acc (s ++ t) =
      (readFrom base limit acc s).bind fun acc => readFrom base limit acc t := by
  induction s generalizing acc with
  | nil => rfl
  | cons c s ih =>
    rw [List.cons_append, readFrom, readFrom]
    cases Byte.digit? c with
    | none => rfl
    | some d =>
      simp only
      split
      · rfl
      · split
        · rfl
        · exact ih _

/-- One more digit at the end. -/
theorem readFrom_digit {base limit acc d : Nat} {c : UInt8} (hc : Byte.digit? c = some d)
    (hd : d < base) (hlimit : acc * base + d ≤ limit) :
    readFrom base limit acc [c] = .ok (acc * base + d) := by
  rw [readFrom, hc]
  simp only [if_neg (Nat.not_le.2 hd), if_neg (Nat.not_lt.2 hlimit)]
  rfl

end Numeral

/-! ## Hexadecimal digits -/

namespace Hex

theorem digit?_digit : ∀ d < 16, Byte.digit? (digit d) = some d := by decide

theorem isHex_digit : ∀ d < 16, Byte.isHex (digit d) = true := by decide

theorem length_fixed (width n : Nat) : (fixed width n).length = width := by
  induction width generalizing n with
  | zero => rfl
  | succ width ih => simp [fixed, ih]

theorem mem_fixed {width n : Nat} {c : UInt8} (h : c ∈ fixed width n) : ∃ d < 16, c = digit d := by
  induction width generalizing n with
  | zero => cases h
  | succ width ih =>
    rcases List.mem_append.1 h with h | h
    · exact ih h
    · exact ⟨n % 16, Nat.mod_lt n (by decide), List.mem_singleton.1 h⟩

theorem readFrom_fixed {limit acc : Nat} (width n : Nat)
    (h : acc * 16 ^ width + n % 16 ^ width ≤ limit) :
    Numeral.readFrom 16 limit acc (fixed width n) = .ok (acc * 16 ^ width + n % 16 ^ width) := by
  induction width generalizing n with
  | zero => simp [fixed, Numeral.readFrom, Nat.mod_one]
  | succ width ih =>
    have hvalue : acc * 16 ^ (width + 1) + n % 16 ^ (width + 1) =
        (acc * 16 ^ width + n / 16 % 16 ^ width) * 16 + n % 16 := by
      rw [Nat.pow_succ', Nat.mod_mul]
      ring
    rw [hvalue] at h ⊢
    rw [fixed, Numeral.readFrom_append, ih (n / 16) (by omega)]
    have hmod : n % 16 < 16 := Nat.mod_lt n (by decide)
    exact Numeral.readFrom_digit (digit?_digit _ hmod) hmod h

theorem lt_size (n : Nat) : n < 16 ^ size n := by
  have hbits : n < 2 ^ (n.log2 + 1) := Nat.lt_log2_self
  have hmono : 2 ^ (n.log2 + 1) ≤ 2 ^ (4 * size n) := by
    refine Nat.pow_le_pow_right (by decide) ?_
    unfold size
    omega
  calc n < 2 ^ (4 * size n) := Nat.lt_of_lt_of_le hbits hmono
    _ = 16 ^ size n := by rw [Nat.pow_mul]

theorem size_pos (n : Nat) : 0 < size n := Nat.succ_pos _

theorem size_le {width n : Nat} (hpos : 0 < width) (h : n < 2 ^ (4 * width)) : size n ≤ width := by
  unfold size
  have hlog : n.log2 < 4 * width := by
    rcases Nat.eq_zero_or_pos n with rfl | hn
    · rw [Nat.log2_zero]
      omega
    · exact (Nat.log2_lt (Nat.ne_of_gt hn)).2 h
  omega

/-- A number that fits its width is not filled up beyond it. -/
theorem padded_eq_fixed {width n : Nat} (hpos : 0 < width) (h : n < 2 ^ (4 * width)) :
    padded width n = fixed width n := by
  rw [padded, Nat.max_eq_left (size_le hpos h)]

theorem fixed_one {d : Nat} (h : d < 16) : fixed 1 d = [digit d] := by
  simp [fixed, Nat.mod_eq_of_lt h]

theorem size_le_eight {n : Nat} (h : n < 2 ^ 32) : size n ≤ 8 := size_le (by decide) h

/-- Reading up to eight digits gives the number of those digits. -/
theorem hexWord_fixed {width : Nat} (n : Nat) (hpos : 0 < width) (hwidth : width ≤ 8) :
    Numeral.hexWord (fixed width n) = .ok (BitVec.ofNat 32 (n % 16 ^ width)) := by
  have hne : (fixed width n).isEmpty = false := by
    rw [List.isEmpty_eq_false_iff, ← List.length_pos_iff, length_fixed]
    exact hpos
  have hlt : n % 16 ^ width < 16 ^ width := Nat.mod_lt _ (Nat.pow_pos (by decide))
  have hle : 16 ^ width ≤ 16 ^ 8 := Nat.pow_le_pow_right (by decide) hwidth
  have hread : Numeral.readFrom 16 Numeral.maxWord 0 (fixed width n) =
      .ok (0 * 16 ^ width + n % 16 ^ width) := by
    refine readFrom_fixed width n ?_
    simp only [Numeral.maxWord, Nat.zero_mul, Nat.zero_add]
    omega
  simp [Numeral.hexWord, Numeral.read, hne, hread, Except.map]

theorem hexWord_natural {n : Nat} (h : n < 2 ^ 32) :
    Numeral.hexWord (natural n) = .ok (BitVec.ofNat 32 n) := by
  rw [natural, hexWord_fixed n (size_pos n) (size_le_eight h), Nat.mod_eq_of_lt (lt_size n)]

theorem hexWord_word (w : Word) : Numeral.hexWord (word w) = .ok w := by
  have hlt : w.toNat < 16 ^ 8 := w.isLt
  rw [word, hexWord_fixed _ (by decide) (Nat.le_refl 8), Nat.mod_eq_of_lt hlt, BitVec.ofNat_toNat,
    BitVec.setWidth_eq]

theorem isHexDigits_fixed {width : Nat} (n : Nat) (hpos : 0 < width) (hwidth : width ≤ 8) :
    Literal.isHexDigits (fixed width n) = true := by
  have hall : (fixed width n).all Byte.isHex = true := by
    refine List.all_eq_true.2 fun c hc => ?_
    obtain ⟨d, hd, rfl⟩ := mem_fixed hc
    exact isHex_digit d hd
  simp only [Literal.isHexDigits, length_fixed, hall, Bool.and_true, Bool.and_eq_true,
    decide_eq_true_iff]
  omega

theorem isHexDigits_natural {n : Nat} (h : n < 2 ^ 32) : Literal.isHexDigits (natural n) = true :=
  isHexDigits_fixed n (size_pos n) (size_le_eight h)

end Hex

/-! ## Decimal digits -/

namespace Decimal

theorem digit?_digitChar : ∀ d < 10, Byte.digit? (Nat.digitChar d).toNat.toUInt8 = some d := by
  decide

theorem isDigit_digitChar : ∀ d < 10, Byte.isDigit (Nat.digitChar d).toNat.toUInt8 = true := by
  decide

theorem natural_of_lt {n : Nat} (h : n < 10) : natural n = [(Nat.digitChar n).toNat.toUInt8] := by
  rw [natural, Nat.toDigits_of_lt_base h]
  rfl

theorem natural_of_ge {n : Nat} (h : 10 ≤ n) :
    natural n = natural (n / 10) ++ [(Nat.digitChar (n % 10)).toNat.toUInt8] := by
  rw [natural, Nat.toDigits_eq_if (by decide), if_neg (Nat.not_lt.2 h), List.map_append]
  rfl

theorem natural_ne_nil (n : Nat) : natural n ≠ [] := by
  by_cases h : n < 10
  · simp [natural_of_lt h]
  · simp [natural_of_ge (Nat.not_lt.1 h)]

theorem isDigit_of_mem {n : Nat} {c : UInt8} (h : c ∈ natural n) : Byte.isDigit c = true := by
  induction n using Nat.strongRecOn with
  | ind n ih =>
    by_cases hn : n < 10
    · rw [natural_of_lt hn, List.mem_singleton] at h
      rw [h]
      exact isDigit_digitChar n hn
    · rw [natural_of_ge (Nat.not_lt.1 hn)] at h
      rcases List.mem_append.1 h with h | h
      · exact ih (n / 10) (by omega) h
      · rw [List.mem_singleton.1 h]
        exact isDigit_digitChar (n % 10) (Nat.mod_lt n (by decide))

theorem readFrom_natural {limit : Nat} (n : Nat) (h : n ≤ limit) :
    Numeral.readFrom 10 limit 0 (natural n) = .ok n := by
  induction n using Nat.strongRecOn with
  | ind n ih =>
    by_cases hn : n < 10
    · have hread : Numeral.readFrom 10 limit 0 [(Nat.digitChar n).toNat.toUInt8] =
          .ok (0 * 10 + n) :=
        Numeral.readFrom_digit (digit?_digitChar n hn) hn (by omega)
      rw [natural_of_lt hn, hread, Nat.zero_mul, Nat.zero_add]
    · have hmod : n % 10 < 10 := Nat.mod_lt n (by decide)
      have hvalue : n / 10 * 10 + n % 10 = n := by omega
      rw [natural_of_ge (Nat.not_lt.1 hn), Numeral.readFrom_append,
        ih (n / 10) (by omega) (by omega)]
      have hread : Numeral.readFrom 10 limit (n / 10) [(Nat.digitChar (n % 10)).toNat.toUInt8] =
          .ok (n / 10 * 10 + n % 10) :=
        Numeral.readFrom_digit (digit?_digitChar _ hmod) hmod (by omega)
      rw [hvalue] at hread
      exact hread

theorem isDecimalDigits_natural (n : Nat) : Literal.isDecimalDigits (natural n) = true := by
  have hall : (natural n).all Byte.isDigit = true := List.all_eq_true.2 fun c hc =>
    isDigit_of_mem hc
  simp [Literal.isDecimalDigits, hall, natural_ne_nil]

theorem sign_ne_digit {c : UInt8} (h : Byte.isDigit c = true) : c ≠ Byte.plus ∧ c ≠ Byte.minus := by
  constructor
  · rintro rfl
    exact absurd h (by decide)
  · rintro rfl
    exact absurd h (by decide)

/-- Decimal digits in front of anything show neither a sign nor a hexadecimal mark. -/
theorem natural_eq_cons (n : Nat) : ∃ c s, natural n = c :: s ∧ Byte.isDigit c = true := by
  obtain ⟨c, s, hcons⟩ := List.exists_cons_of_ne_nil (natural_ne_nil n)
  exact ⟨c, s, hcons, isDigit_of_mem (hcons ▸ List.mem_cons_self)⟩

theorem signedWord_cons {c : UInt8} (hc : Byte.isDigit c = true) (s : Bytes) :
    Numeral.signedWord (c :: s) =
      (Numeral.read 10 Numeral.maxWord (c :: s)).bind fun n =>
        if 0x80000000 ≤ n then .error .tooLarge else .ok (BitVec.ofNat 32 n) := by
  obtain ⟨hplus, hminus⟩ := sign_ne_digit hc
  simp only [Numeral.signedWord, if_neg hplus, if_neg hminus]
  cases Numeral.read 10 Numeral.maxWord (c :: s) with
  | error e => rfl
  | ok n => rfl

theorem signedWord_natural {n : Nat} (h : n < 2 ^ 31) :
    Numeral.signedWord (natural n) = .ok (BitVec.ofNat 32 n) := by
  obtain ⟨c, s, hcons, hdigit⟩ := natural_eq_cons n
  have hle : ¬ 0x80000000 ≤ n := by omega
  have hread : Numeral.read 10 Numeral.maxWord (natural n) = .ok n := by
    rw [Numeral.read, if_neg (by simp [natural_ne_nil])]
    exact readFrom_natural n (by simp only [Numeral.maxWord]; omega)
  rw [hcons, signedWord_cons hdigit, ← hcons, hread]
  exact if_neg hle

end Decimal

/-! ## Literals -/

theorem Bytes.eq_append_of_after? {lead s rest : Bytes} (h : Bytes.after? lead s = some rest) :
    s = lead ++ rest := by
  induction lead generalizing s with
  | nil => exact Option.some.inj h
  | cons a lead ih =>
    cases s with
    | nil => cases h
    | cons b s =>
      rw [Bytes.after?] at h
      split at h
      · rename_i hab
        rw [hab, List.cons_append, ih h]
      · cases h

/-- A text without some byte of `lead` does not start with it. -/
theorem Bytes.after?_eq_none {b : UInt8} {lead s : Bytes} (hlead : b ∈ lead) (hs : b ∉ s) :
    after? lead s = none := by
  cases hafter : after? lead s with
  | none => rfl
  | some rest =>
    rw [eq_append_of_after? hafter] at hs
    exact absurd (List.mem_append_left rest hlead) hs

theorem Bytes.dropLead_eq_self {b : UInt8} {lead s : Bytes} (hlead : b ∈ lead) (hs : b ∉ s) :
    dropLead lead s = s := by
  rw [dropLead, after?_eq_none hlead hs, Option.getD_none]

theorem Bytes.mem_lead_or_mem_dropLead {b : UInt8} {lead s : Bytes} (h : b ∈ s) :
    b ∈ lead ∨ b ∈ dropLead lead s := by
  unfold dropLead
  cases hafter : after? lead s with
  | none => exact .inr h
  | some rest =>
    rw [eq_append_of_after? hafter] at h
    exact List.mem_append.1 h

namespace Literal

theorem isInteger_hex {digits : Bytes} (h : isHexDigits digits = true) :
    isInteger (ascii "0x" ++ digits) = true := by
  have hform : isHexForm (ascii "0x" ++ digits) = isHexDigits digits := rfl
  rw [isInteger, hform, h]
  rfl

theorem isInteger_minusHex {digits : Bytes} (h : isHexDigits digits = true) :
    isInteger (ascii "-0x" ++ digits) = true := by
  have hform : isHexForm (ascii "-0x" ++ digits) = isHexDigits digits := rfl
  rw [isInteger, hform, h]
  rfl

theorem address_hex {digits : Bytes} {v : Word} (h : Numeral.hexWord digits = .ok v) :
    address (ascii "0x" ++ digits) = .ok v := by
  have hdigits : Bytes.dropLead hexMark (unsigned (ascii "0x" ++ digits)) = digits := rfl
  have hsign : Bytes.startsWith [Byte.minus] (ascii "0x" ++ digits) = false := rfl
  rw [address, hdigits, h]
  simp only [hsign, Bool.false_eq_true, if_false]

theorem integer_hex {digits : Bytes} {v : Word} (h : Numeral.hexWord digits = .ok v) :
    integer (ascii "0x" ++ digits) = .ok v := by
  have hmarked : isHexMarked (ascii "0x" ++ digits) = true := rfl
  rw [integer, if_pos hmarked, address_hex h]

theorem integer_minusHex {digits : Bytes} {v : Word} (h : Numeral.hexWord digits = .ok v) :
    integer (ascii "-0x" ++ digits) = .ok (-v) := by
  have hmarked : isHexMarked (ascii "-0x" ++ digits) = true := rfl
  have hdigits : Bytes.dropLead hexMark (unsigned (ascii "-0x" ++ digits)) = digits := rfl
  have hsign : Bytes.startsWith [Byte.minus] (ascii "-0x" ++ digits) = true := rfl
  rw [integer, if_pos hmarked, address, hdigits, h]
  simp only [hsign, if_true]

theorem isAddress_hex {digits : Bytes} (h : isHexDigits digits = true) :
    isAddress (ascii "0x" ++ digits) = true := by
  have hform : isAddress (ascii "0x" ++ digits) = isHexDigits digits := rfl
  rw [hform, h]

theorem dropLead_hexMark_digits {s : Bytes} (h : isHexDigits s = true) :
    Bytes.dropLead hexMark s = s := by
  have hx : (0x78 : UInt8) ∈ hexMark := by decide
  refine Bytes.dropLead_eq_self hx fun hmem => ?_
  rw [isHexDigits, Bool.and_eq_true, List.all_eq_true] at h
  exact absurd (h.2 _ hmem) (by decide)

/-- The mark may stand behind a minus sign. -/
theorem isHexMarked_eq (s : Bytes) : isHexMarked s = Bytes.startsWith hexMark (unsigned s) := by
  cases s with
  | nil => rfl
  | cons c s =>
    by_cases hc : Byte.minus = c
    · obtain rfl := hc
      rfl
    · have hsign : Bytes.startsWith (ascii "-0x") (c :: s) = false := by
        have hmark : ascii "-0x" = Byte.minus :: hexMark := rfl
        rw [hmark, Bytes.startsWith, Bytes.after?, if_neg hc]
        rfl
      have hself : unsigned (c :: s) = c :: s := by
        rw [unsigned, Bytes.dropLead, Bytes.after?, if_neg hc]
        rfl
      rw [isHexMarked, hsign, Bool.or_false, hself]

theorem unsigned_natural (n : Nat) : unsigned (Decimal.natural n) = Decimal.natural n := by
  obtain ⟨c, s, hcons, hdigit⟩ := Decimal.natural_eq_cons n
  have hminus := (Decimal.sign_ne_digit hdigit).2
  simp [unsigned, Bytes.dropLead, hcons, Bytes.after?, Ne.symm hminus]

theorem isHexMarked_natural (n : Nat) : isHexMarked (Decimal.natural n) = false := by
  -- both marks hold an `x`, which is no digit
  have hx : 0x78 ∉ Decimal.natural n := fun hmem => absurd (Decimal.isDigit_of_mem hmem) (by decide)
  have hmark : (0x78 : UInt8) ∈ hexMark ∧ (0x78 : UInt8) ∈ ascii "-0x" := by decide
  rw [isHexMarked, Bytes.startsWith, Bytes.startsWith, Bytes.after?_eq_none hmark.1 hx,
    Bytes.after?_eq_none hmark.2 hx]
  rfl

theorem isInteger_natural (n : Nat) : isInteger (Decimal.natural n) = true := by
  rw [isInteger, unsigned_natural, Decimal.isDecimalDigits_natural, Bool.or_true]

theorem integer_natural {n : Nat} (h : n < 2 ^ 31) :
    integer (Decimal.natural n) = .ok (BitVec.ofNat 32 n) := by
  rw [integer, isHexMarked_natural, if_neg Bool.false_ne_true, Decimal.signedWord_natural h]

end Literal

/-! ## The number that digits spell -/

theorem Byte.digit?_of_isDigit {c : UInt8} (h : Byte.isDigit c = true) :
    ∃ d < 10, Byte.digit? c = some d := by
  have hbound : c ≤ 0x39 := by grind [Byte.isDigit]
  have hnat := UInt8.le_iff_toNat_le.1 hbound
  have hvalue : (0x39 : UInt8).toNat = 57 := rfl
  exact ⟨c.toNat - 0x30, by omega, by rw [Byte.digit?, if_pos h]⟩

theorem Byte.digit?_of_isHex {c : UInt8} (h : Byte.isHex c = true) :
    ∃ d < 16, Byte.digit? c = some d := by
  have hcases : Byte.isDigit c = true ∨ (0x61 ≤ c ∧ c ≤ 0x66) ∨ (0x41 ≤ c ∧ c ≤ 0x46) := by
    grind [Byte.isHex]
  rcases hcases with hdigit | ⟨hlow, hhigh⟩ | ⟨hlow, hhigh⟩
  · obtain ⟨d, hd, hvalue⟩ := digit?_of_isDigit hdigit
    exact ⟨d, by omega, hvalue⟩
  · have hnat := UInt8.le_iff_toNat_le.1 hhigh
    have hvalue : (0x66 : UInt8).toNat = 102 := rfl
    exact ⟨c.toNat - 0x57, by omega, by grind [Byte.digit?, Byte.isDigit, Byte.isLower]⟩
  · have hnat := UInt8.le_iff_toNat_le.1 hhigh
    have hvalue : (0x46 : UInt8).toNat = 70 := rfl
    exact ⟨c.toNat - 0x37, by omega, by grind [Byte.digit?, Byte.isDigit, Byte.isLower,
      Byte.isUpper]⟩

namespace Numeral

variable {base limit acc : Nat} {s : Bytes}

/-- Whether every byte is a digit of a base. -/
def IsDigits (base : Nat) (s : Bytes) : Prop := ∀ c ∈ s, ∃ d < base, Byte.digit? c = some d

/-- The number that digits spell in a base. The first digit is the highest. -/
def value (base : Nat) (s : Bytes) : Nat :=
  Nat.ofDigits base (s.reverse.map fun c => (Byte.digit? c).getD 0)

theorem value_cons {c : UInt8} {d : Nat} (hc : Byte.digit? c = some d) (s : Bytes) :
    value base (c :: s) = d * base ^ s.length + value base s := by
  rw [value, List.reverse_cons, List.map_append, Nat.ofDigits_append, List.length_map,
    List.length_reverse, List.map_singleton, Nat.ofDigits_singleton, hc, Option.getD_some, value]
  ring

theorem value_lt (hbase : 1 < base) (hs : IsDigits base s) : value base s < base ^ s.length := by
  have hdigits : ∀ x ∈ s.reverse.map (fun c => (Byte.digit? c).getD 0), x < base := by
    intro x hx
    obtain ⟨c, hc, rfl⟩ := List.mem_map.1 hx
    obtain ⟨d, hd, hdigit⟩ := hs c (List.mem_reverse.1 hc)
    rwa [hdigit, Option.getD_some]
  have hlt := Nat.ofDigits_lt_base_pow_length hbase hdigits
  rwa [List.length_map, List.length_reverse] at hlt

/-- Digits are read as the number that they spell behind the digits before, if that is within the
limit. -/
theorem readFrom_eq (hs : IsDigits base s) (hacc : acc ≤ limit) :
    readFrom base limit acc s =
      if acc * base ^ s.length + value base s ≤ limit then
      .ok (acc * base ^ s.length + value base s)
      else .error .tooLarge := by
  induction s generalizing acc with
  | nil =>
    have hvalue : acc * base ^ ([] : Bytes).length + value base [] = acc := by simp [value]
    rw [readFrom, hvalue, if_pos hacc]
  | cons c s ih =>
    obtain ⟨⟨d, hd, hdigit⟩, hrest⟩ := List.forall_mem_cons.1 hs
    have hvalue : acc * base ^ (c :: s).length + value base (c :: s) =
        (acc * base + d) * base ^ s.length + value base s := by
      rw [value_cons hdigit, List.length_cons, Nat.pow_succ]
      ring
    rw [readFrom, hdigit, hvalue]
    simp only [if_neg (Nat.not_le.2 hd)]
    split
    · next hlarge =>
      -- The digits that follow do not make the number smaller.
      have hpow : 0 < base ^ s.length := Nat.pow_pos (by omega)
      have hle : acc * base + d ≤ (acc * base + d) * base ^ s.length :=
        Nat.le_mul_of_pos_right _ hpow
      rw [if_neg (by omega)]
    · next hsmall => exact ih hrest (Nat.not_lt.1 hsmall)

theorem read_eq (hne : s ≠ []) (hs : IsDigits base s) :
    read base limit s = if value base s ≤ limit then .ok (value base s) else .error .tooLarge := by
  rw [read, if_neg (by rwa [List.isEmpty_iff]), readFrom_eq hs (Nat.zero_le limit), Nat.zero_mul,
    Nat.zero_add]

end Numeral

/-! ## Address literals -/

/-- The bytes of an address are the sign, those of the mark and digits. -/
theorem Literal.mem_of_isAddress {s : Bytes} (h : Literal.isAddress s = true) :
    ∀ b ∈ s, b = Byte.minus ∨ b ∈ hexMark ∨ Byte.isHex b = true := by
  intro b hb
  rw [isAddress, isHexDigits, Bool.and_eq_true, List.all_eq_true] at h
  rcases Bytes.mem_lead_or_mem_dropLead hb with hsign | hunsigned
  · exact .inl (List.mem_singleton.1 hsign)
  · exact .inr ((Bytes.mem_lead_or_mem_dropLead hunsigned).imp_right (h.2 b))

theorem Literal.isDigits_of_isHexDigits {s : Bytes} (h : isHexDigits s = true) :
    Numeral.IsDigits 16 s := by
  rw [isHexDigits, Bool.and_eq_true, List.all_eq_true] at h
  exact fun c hc => Byte.digit?_of_isHex (h.2 c hc)

/-- Up to eight hexadecimal digits spell a word. -/
theorem Literal.hexWord_eq {s : Bytes} (h : isHexDigits s = true) :
    Numeral.hexWord s = .ok (BitVec.ofNat 32 (Numeral.value 16 s)) := by
  have hdigits := isDigits_of_isHexDigits h
  simp only [isHexDigits, Bool.and_eq_true, decide_eq_true_eq] at h
  obtain ⟨⟨hone, height⟩, -⟩ := h
  have hroom : Numeral.value 16 s ≤ Numeral.maxWord := by
    have hlt := Numeral.value_lt (by decide) hdigits
    have hpow : 16 ^ s.length ≤ 16 ^ 8 := Nat.pow_le_pow_right (by decide) height
    simp only [Numeral.maxWord]
    omega
  rw [Numeral.hexWord, Numeral.read_eq (List.length_pos_iff.1 hone) hdigits, if_pos hroom]
  rfl

/-- A text in the form of an address has a value. -/
theorem Literal.address_of_isAddress {s : Bytes} (h : Literal.isAddress s = true) :
    ∃ a, Literal.address s = .ok a := by
  rw [isAddress] at h
  rw [address, hexWord_eq h]
  exact ⟨_, rfl⟩

/-! ## Tokens -/

theorem Argument.literal_eq_ok {isForm : Bytes → Bool} {value : Bytes → Except NumeralError Word}
    {fault : Fault} {token : Bytes} {v : Word} (hform : isForm token = true)
    (hvalue : value token = .ok v) : Argument.literal isForm value fault token = .ok v := by
  rw [Argument.literal, if_pos hform, hvalue]

theorem Argument.of_literal_eq_ok {isForm : Bytes → Bool} {value : Bytes → Except NumeralError Word}
    {fault : Fault} {token : Bytes} {v : Word}
    (h : Argument.literal isForm value fault token = .ok v) :
    isForm token = true ∧ value token = .ok v := by
  unfold Argument.literal at h
  split at h
  · rename_i hform
    cases hvalue : value token with
    | error e => simp [hvalue] at h
    | ok u =>
      rw [hvalue] at h
      exact ⟨hform, congrArg _ (Except.ok.inj h)⟩
  · cases h

end CheatScript
