import CheatScript.Proofs.Numerals
import Mathlib.Data.Int.ModEq

/-!
# Proofs: literals of the right form have a value

The form of a literal is tested apart from its conversion, so a text might pass the test and still
have no value. An address never does, and an integer does exactly if it is a decimal outside the
signed 32-bit range. Signed and unsigned integers are converted apart too, but where both
conversions give a value, it is the same one modulo `2 ^ 32`.
-/

namespace CheatScript

theorem Bytes.after?_append (lead s : Bytes) : after? lead (lead ++ s) = some s := by
  induction lead with
  | nil => rfl
  | cons a lead ih => rw [List.cons_append, after?, if_pos rfl, ih]

theorem Bytes.lead_append_dropLead (lead s : Bytes) :
    (if startsWith lead s then lead else []) ++ dropLead lead s = s := by
  rw [startsWith, dropLead]
  cases hafter : after? lead s with
  | none => rfl
  | some rest => exact (eq_append_of_after? hafter).symm

namespace Literal

open Numeral

/-! ## Spellings -/

/-- The parts of a literal: a minus sign or none, `0x` or none, and digits. -/
structure Spelling where
  negative : Bool
  marked : Bool
  digits : Bytes

namespace Spelling

/-- The text behind the sign. -/
def unsignedText (l : Spelling) : Bytes := (if l.marked then hexMark else []) ++ l.digits

def text (l : Spelling) : Bytes := (if l.negative then [Byte.minus] else []) ++ l.unsignedText

/-- The number that is spelled with digits of a base. -/
def number (base : Nat) (l : Spelling) : Int :=
  if l.negative then -(value base l.digits : Int) else (value base l.digits : Int)

/-- The parts of a text, whatever it is. -/
def ofText (s : Bytes) : Spelling where
  negative := Bytes.startsWith [Byte.minus] s
  marked := Bytes.startsWith hexMark (unsigned s)
  digits := Bytes.dropLead hexMark (unsigned s)

theorem unsignedText_ofText (s : Bytes) : (ofText s).unsignedText = unsigned s :=
  Bytes.lead_append_dropLead hexMark (unsigned s)

theorem text_ofText (s : Bytes) : (ofText s).text = s := by
  rw [text, unsignedText_ofText]
  exact Bytes.lead_append_dropLead [Byte.minus] s

variable {l : Spelling}

theorem after?_minus_text (h : ∀ c ∈ l.digits, Byte.isHex c = true) :
    Bytes.after? [Byte.minus] l.text = if l.negative then some l.unsignedText else none := by
  rw [text]
  split
  · exact Bytes.after?_append _ _
  · refine Bytes.after?_eq_none List.mem_cons_self fun hmem => ?_
    rw [List.nil_append, unsignedText] at hmem
    rcases List.mem_append.1 hmem with hmark | hdigit
    · split at hmark
      · exact absurd hmark (by decide)
      · cases hmark
    · exact absurd (h _ hdigit) (by decide)

theorem after?_hexMark_unsignedText (h : ∀ c ∈ l.digits, Byte.isHex c = true) :
    Bytes.after? hexMark l.unsignedText = if l.marked then some l.digits else none := by
  rw [unsignedText]
  split
  · exact Bytes.after?_append _ _
  · have hx : (0x78 : UInt8) ∈ hexMark := by decide
    exact Bytes.after?_eq_none hx fun hdigit => absurd (h _ hdigit) (by decide)

/-- Where the digits are hexadecimal, a literal has no other parts. -/
theorem ofText_text (h : ∀ c ∈ l.digits, Byte.isHex c = true) : ofText l.text = l := by
  have hunsigned : unsigned l.text = l.unsignedText := by
    rw [unsigned, Bytes.dropLead, after?_minus_text h, text]
    split
    · rfl
    · rfl
  have hdigits : Bytes.dropLead hexMark l.unsignedText = l.digits := by
    rw [Bytes.dropLead, after?_hexMark_unsignedText h, unsignedText]
    split
    · rfl
    · rfl
  rw [ofText, hunsigned, hdigits, Bytes.startsWith, Bytes.startsWith, after?_minus_text h,
    after?_hexMark_unsignedText h]
  cases l with
  | mk negative marked digits => cases negative <;> cases marked <;> rfl

theorem ofInt_number (base : Nat) (l : Spelling) :
    BitVec.ofInt 32 (l.number base) =
      if l.negative then -BitVec.ofNat 32 (value base l.digits) else BitVec.ofNat 32
        (value base l.digits) := by
  rw [number]
  split
  · rw [BitVec.ofInt_neg, BitVec.ofInt_natCast]
  · rw [BitVec.ofInt_natCast]

end Spelling

open Spelling

variable {s : Bytes} {l : Spelling}

/-! ## Addresses -/

theorem address_eq (h : isAddress s = true) :
    address s = .ok (BitVec.ofInt 32 ((ofText s).number 16)) := by
  rw [address, hexWord_eq h, ofInt_number]
  rfl

/-- The eight digits of a word are read as that word. -/
theorem address_word (w : Word) : address (Hex.word w) = .ok w := by
  have hhex : ∀ c ∈ Hex.word w, Byte.isHex c = true := by
    intro c hc
    obtain ⟨d, hd, rfl⟩ := Hex.mem_fixed hc
    exact Hex.isHex_digit d hd
  have hparts : ofText (Hex.word w) = ⟨false, false, Hex.word w⟩ :=
    ofText_text (l := ⟨false, false, Hex.word w⟩) hhex
  have hsign : Bytes.startsWith [Byte.minus] (Hex.word w) = false :=
    congrArg Spelling.negative hparts
  have hdigits : Bytes.dropLead hexMark (unsigned (Hex.word w)) = Hex.word w :=
    congrArg Spelling.digits hparts
  rw [address, hdigits, Hex.hexWord_word, hsign]
  rfl

/-! ## Integers -/

theorem isInteger_eq (s : Bytes) : isInteger s =
    if (ofText s).marked then isHexDigits (ofText s).digits else isDecimalDigits
      (ofText s).digits := by
  have hmarked : (ofText s).marked = (Bytes.after? hexMark (unsigned s)).isSome := rfl
  have hdigits : (ofText s).digits = (Bytes.after? hexMark (unsigned s)).getD (unsigned s) := rfl
  rw [hmarked, hdigits, isInteger, isHexForm]
  cases hafter : Bytes.after? hexMark (unsigned s) with
  | none => rfl
  | some rest =>
    -- The mark holds an `x`, which is no decimal digit.
    have hdecimal : isDecimalDigits (hexMark ++ rest) = false := rfl
    rw [Bytes.eq_append_of_after? hafter, hdecimal, Bool.or_false]
    rfl

/-- Whether a literal is a decimal. -/
structure Spelling.IsDecimal (l : Spelling) : Prop where
  unmarked : l.marked = false
  digits : isDecimalDigits l.digits = true

namespace Spelling.IsDecimal

theorem ne_nil (h : l.IsDecimal) : l.digits ≠ [] := by
  intro hnil
  have hdigits := h.digits
  rw [hnil] at hdigits
  cases hdigits

theorem isDigit (h : l.IsDecimal) : ∀ c ∈ l.digits, Byte.isDigit c = true := by
  have hdigits := h.digits
  rw [isDecimalDigits, Bool.and_eq_true, List.all_eq_true] at hdigits
  exact hdigits.2

theorem isDigits (h : l.IsDecimal) : IsDigits 10 l.digits :=
  fun c hc => Byte.digit?_of_isDigit (h.isDigit c hc)

theorem text_eq (h : l.IsDecimal) :
    l.text = (if l.negative then [Byte.minus] else []) ++ l.digits := by
  rw [text, unsignedText, h.unmarked, if_neg Bool.false_ne_true, List.nil_append]

theorem isHexMarked_text (h : l.IsDecimal) : isHexMarked l.text = false := by
  have hhex : ∀ c ∈ l.digits, Byte.isHex c = true := by
    intro c hc
    rw [Byte.isHex, h.isDigit c hc]
    rfl
  have hparts : (ofText l.text).marked = l.marked := congrArg Spelling.marked (ofText_text hhex)
  rw [isHexMarked_eq]
  exact hparts.trans h.unmarked

end Spelling.IsDecimal

/-- A text in the form of an integer is an address with a mark, or a decimal. -/
theorem isInteger_cases (h : isInteger s = true) :
    (isHexMarked s = true ∧ isAddress s = true) ∨ ∃ l : Spelling, l.text = s ∧ l.IsDecimal := by
  rw [isInteger_eq] at h
  split at h
  · next hmarked => exact .inl ⟨by rw [isHexMarked_eq]; exact hmarked, h⟩
  · next hplain => exact .inr ⟨ofText s, text_ofText s, Bool.eq_false_iff.2 hplain, h⟩

theorem signedWord_minus (s : Bytes) : signedWord (Byte.minus :: s) =
    (read 10 maxWord s).bind fun n =>
      if 0x80000000 < n then .error .tooLarge else .ok (-BitVec.ofNat 32 n) := by
  have hplus : Byte.minus ≠ Byte.plus := by decide
  simp only [signedWord, if_neg hplus, if_true]
  cases read 10 maxWord s with
  | error e => rfl
  | ok n => rfl

/-- The limit of the reader does not matter where a narrower one follows. -/
theorem read_bind {P : Nat → Prop} [DecidablePred P] {f : Nat → Word} (hne : s ≠ [])
    (hs : IsDigits 10 s) (hP : ∀ n, maxWord < n → P n) :
    ((read 10 maxWord s).bind fun n => if P n then .error .tooLarge else .ok (f n)) =
      if P (value 10 s) then .error .tooLarge else .ok (f (value 10 s)) := by
  rw [read_eq hne hs]
  split
  · rfl
  · next hlarge => exact (if_pos (hP _ (Nat.not_le.1 hlarge))).symm

/-- Whether a number is in the signed 32-bit range. -/
def InRange (n : Int) : Prop := -2 ^ 31 ≤ n ∧ n < 2 ^ 31

instance (n : Int) : Decidable (InRange n) := inferInstanceAs (Decidable (_ ∧ _))

namespace Spelling.IsDecimal

/-- A decimal is read as its number if that is in the signed range. -/
theorem integer_text (h : l.IsDecimal) :
    integer l.text =
      if InRange (l.number 10) then .ok (BitVec.ofInt 32 (l.number 10)) else .error .tooLarge := by
  rw [integer, h.isHexMarked_text, if_neg Bool.false_ne_true, h.text_eq, ofInt_number, number]
  split
  · rw [List.singleton_append, signedWord_minus,
      read_bind h.ne_nil h.isDigits (by simp only [maxWord]; omega)]
    by_cases hn : 0x80000000 < value 10 l.digits
    · rw [if_pos hn, if_neg (by rw [InRange]; omega)]
    · rw [if_neg hn, if_pos (by rw [InRange]; omega)]
  · obtain ⟨c, rest, hcons⟩ := List.exists_cons_of_ne_nil h.ne_nil
    have hc : Byte.isDigit c = true := h.isDigit c (hcons ▸ List.mem_cons_self)
    rw [List.nil_append, hcons, Decimal.signedWord_cons hc, ← hcons,
      read_bind h.ne_nil h.isDigits (by simp only [maxWord]; omega)]
    by_cases hn : 0x80000000 ≤ value 10 l.digits
    · rw [if_pos hn, if_neg (by rw [InRange]; omega)]
    · rw [if_neg hn, if_pos (by rw [InRange]; omega)]

/-- A decimal that has a value in an unsigned sum has no sign, and its number is that value. -/
theorem eq_of_unsignedInteger_text {u : Word} (h : l.IsDecimal)
    (hu : unsignedInteger l.text = .ok u) : u = BitVec.ofInt 32 (l.number 10) := by
  rw [unsignedInteger, h.isHexMarked_text, if_neg Bool.false_ne_true, unsignedWord, h.text_eq] at hu
  rw [ofInt_number]
  split
  · next hnegative =>
    rw [if_pos hnegative] at hu
    cases hu
  · next hpositive =>
    rw [if_neg hpositive, List.nil_append, read_eq h.ne_nil h.isDigits] at hu
    split at hu
    · exact (Except.ok.inj hu).symm
    · cases hu

end Spelling.IsDecimal

/-! ## Values of the right form -/

/-- Whether a text is a decimal outside the signed 32-bit range. -/
def IsWideDecimal (s : Bytes) : Prop := ∃ l : Spelling, l.text = s ∧ l.IsDecimal ∧
    ¬ InRange (l.number 10)

theorem integer_eq_error_iff (h : isInteger s = true) : (∃ e, integer s = .error e) ↔
    IsWideDecimal s := by
  rcases isInteger_cases h with ⟨hmarked, haddress⟩ | ⟨l, rfl, hl⟩
  · constructor
    · rintro ⟨e, he⟩
      rw [integer, if_pos hmarked, address_eq haddress] at he
      cases he
    · rintro ⟨l, rfl, hl, -⟩
      rw [hl.isHexMarked_text] at hmarked
      cases hmarked
  · constructor
    · rintro ⟨e, he⟩
      refine ⟨l, rfl, hl, fun hrange => ?_⟩
      rw [hl.integer_text, if_pos hrange] at he
      cases he
    · rintro ⟨l', htext, hl', hwide⟩
      refine ⟨.tooLarge, ?_⟩
      rw [← htext, hl'.integer_text, if_neg hwide]

/-- Both conversions of an integer give the same word. -/
theorem integer_eq_unsignedInteger {v u : Word} (h : isInteger s = true) (hv : integer s = .ok v)
    (hu : unsignedInteger s = .ok u) : v = u := by
  rcases isInteger_cases h with ⟨hmarked, -⟩ | ⟨l, rfl, hl⟩
  · rw [integer, if_pos hmarked] at hv
    rw [unsignedInteger, if_pos hmarked, hv] at hu
    exact Except.ok.inj hu
  · rw [hl.integer_text] at hv
    split at hv
    · rw [hl.eq_of_unsignedInteger_text hu]
      exact (Except.ok.inj hv).symm
    · cases hv

theorem toInt_modEq_toNat (w : Word) : w.toInt ≡ w.toNat [ZMOD 2 ^ 32] := by
  rw [Int.ModEq, BitVec.toInt_eq_toNat_bmod]
  exact Int.bmod_emod

/-- **Literals of the right form have values.** An address is a sign, a mark and up to eight
hexadecimal digits, and its value is their number modulo `2 ^ 32`, in the signed reading. An integer
has no value exactly if it is a decimal outside the signed 32-bit range; where it has a signed and
an unsigned value, they are the same modulo `2 ^ 32`. The eight digits of a word are an address with
that word as its value. -/
theorem literals_convert (s : Bytes) :
    (isAddress s = true → ∃ l : Spelling, l.text = s ∧ isHexDigits l.digits = true ∧
      ∃ v, address s = .ok v ∧ v.toInt = (l.number 16).bmod (2 ^ 32)) ∧
    (isInteger s = true → ((∃ e, integer s = .error e) ↔ IsWideDecimal s) ∧
      ∀ v u, integer s = .ok v → unsignedInteger s = .ok u → v.toInt ≡ u.toNat [ZMOD 2 ^ 32]) ∧
    ∀ v : Word, address (Hex.word v) = .ok v := by
  refine ⟨fun h => ?_, fun h => ⟨integer_eq_error_iff h, fun v u hv hu => ?_⟩, address_word⟩
  · exact ⟨ofText s, text_ofText s, h, _, address_eq h, BitVec.toInt_ofInt _⟩
  · rw [integer_eq_unsignedInteger h hv hu]
    exact toInt_modEq_toNat u

/-- A negative address past the signed range, the least decimal past it, and a pattern that is read
either way. -/
theorem literals_convert_edges :
    (isAddress (ascii "-0x80000001") = true ∧ ∃ l : Spelling, l.text = ascii "-0x80000001" ∧
      ∃ v, address (ascii "-0x80000001") = .ok v ∧ v.toInt = (l.number 16).bmod (2 ^ 32)) ∧
    (isInteger (ascii "2147483648") = true ∧ IsWideDecimal (ascii "2147483648")) ∧
    (isInteger (ascii "0xFFFFFFFF") = true ∧ -1 ≡ 4294967295 [ZMOD 2 ^ 32]) := by
  refine ⟨⟨rfl, ?_⟩, ⟨rfl, ?_⟩, rfl, ?_⟩
  · obtain ⟨l, htext, -, hvalue⟩ := (literals_convert (ascii "-0x80000001")).1 rfl
    exact ⟨l, htext, hvalue⟩
  · exact ((literals_convert (ascii "2147483648")).2.1 rfl).1.1 ⟨.tooLarge, rfl⟩
  · exact ((literals_convert (ascii "0xFFFFFFFF")).2.1 rfl).2 0xFFFFFFFF 0xFFFFFFFF rfl rfl

end Literal

end CheatScript
