import CheatScript.Text.Bytes

/-!
# Numerals

Hexadecimal and decimal numerals, written and read. `fixed w n` writes exactly the `w` low digits,
`padded w n` at least `w` digits; hexadecimal letters are written in upper case. Reading goes digit
by digit from the left and tells a digit of the wrong kind (`malformed`) from a value past the limit
(`tooLarge`), whichever is met first.
-/

namespace CheatScript

/-- A 32-bit machine word. Signed values are its two's complement reading, `BitVec.toInt`. -/
abbrev Word := BitVec 32

namespace Hex

/-- The upper-case digit of a value below 16. -/
def digit (d : Nat) : UInt8 := if d < 10 then (0x30 + d).toUInt8 else (0x37 + d).toUInt8

/-- The `width` low hexadecimal digits of `n`, leading zeros included. -/
def fixed : (width n : Nat) → Bytes
  | 0, _ => []
  | width + 1, n => fixed width (n / 16) ++ [digit (n % 16)]

/-- The number of hexadecimal digits of `n`; zero has one. -/
def size (n : Nat) : Nat := n.log2 / 4 + 1

/-- The hexadecimal digits of `n` without leading zeros. -/
def natural (n : Nat) : Bytes := fixed (size n) n

/-- The hexadecimal digits of `n`, filled up with zeros to at least `width` digits. -/
def padded (width n : Nat) : Bytes := fixed (max width (size n)) n

/-- The eight digits of a word. -/
def word (w : Word) : Bytes := fixed 8 w.toNat

end Hex

namespace Decimal

/-- The decimal digits of `n`. -/
def natural (n : Nat) : Bytes := (Nat.toDigits 10 n).map fun c => c.toNat.toUInt8

/-- The decimal digits of `n` after a minus sign if it is negative. -/
def integer (n : Int) : Bytes := match n with
  | .ofNat k => natural k
  | .negSucc k => Byte.minus :: natural (k + 1)

end Decimal

/-- Why a numeral has no value. -/
inductive NumeralError
  /-- There is no digit, or a byte that is no digit of the base. -/
  | malformed
  /-- The value passes the limit. -/
  | tooLarge
  deriving DecidableEq, Repr

namespace Numeral

/-- Reads on from the value `acc` of the digits so far, refusing values above `limit`. -/
def readFrom (base limit : Nat) : (acc : Nat) → Bytes → Except NumeralError Nat
  | acc, [] => .ok acc
  | acc, c :: s => match Byte.digit? c with
    | none => .error .malformed
    | some d =>
      if base ≤ d then .error .malformed
      else if limit < acc * base + d then .error .tooLarge
      else readFrom base limit (acc * base + d) s

/-- The value of the numeral `s` in `base`, at most `limit`; no sign is taken. -/
def read (base limit : Nat) (s : Bytes) : Except NumeralError Nat :=
  if s.isEmpty then .error .malformed else readFrom base limit 0 s

/-- The largest value of a 32-bit word. -/
abbrev maxWord : Nat := 0xFFFFFFFF

/-- The 32-bit word that a hexadecimal numeral spells. -/
def hexWord (s : Bytes) : Except NumeralError Word := (read 16 maxWord s).map (BitVec.ofNat 32)

/-- A decimal numeral with an optional sign, within the signed 32-bit range. -/
def signedWord (s : Bytes) : Except NumeralError Word :=
  let (negative, digits) := match s with
    | c :: rest =>
      if c = Byte.plus then (false, rest) else if c = Byte.minus then (true, rest) else (false, s)
    | [] => (false, s)
  match read 10 maxWord digits with
  | .error e => .error e
  | .ok n =>
    if negative then
      if 0x80000000 < n then .error .tooLarge else .ok (-(BitVec.ofNat 32 n))
    else if 0x80000000 ≤ n then .error .tooLarge else .ok (BitVec.ofNat 32 n)

/-- The 32-bit word that a decimal numeral without sign spells. -/
def unsignedWord (s : Bytes) : Except NumeralError Word :=
  (read 10 maxWord s).map (BitVec.ofNat 32)

end Numeral

end CheatScript
