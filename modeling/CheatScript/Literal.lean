import CheatScript.Number.Single
import CheatScript.Text.Numeral

/-!
# Literals

The four kinds of literal that a script argument can be: addresses, integers, floats and byte lists.
Each kind has a test for its form and a conversion to its value. Addresses are always hexadecimal;
an integer is hexadecimal only after `0x`. A minus sign negates the magnitude, also of a hexadecimal
literal, which is never read as a two's complement digit string. The conversions are total: on a
text of the wrong form they say what is wrong with its numeral.
-/

namespace CheatScript.Literal

/-- The text `0x` in front of hexadecimal digits. -/
def hexMark : Bytes := ascii "0x"

/-- The text without a minus sign in front. -/
def unsigned (s : Bytes) : Bytes := Bytes.dropLead [Byte.minus] s

/-- One to eight hexadecimal digits. -/
def isHexDigits (s : Bytes) : Bool := 1 ≤ s.length && s.length ≤ 8 && s.all Byte.isHex

/-- One or more decimal digits. -/
def isDecimalDigits (s : Bytes) : Bool := !s.isEmpty && s.all Byte.isDigit

/-- One to eight hexadecimal digits after `0x`, with an optional minus sign. -/
def isHexForm (s : Bytes) : Bool := match Bytes.after? hexMark (unsigned s) with
  | some digits => isHexDigits digits
  | none => false

/-! ## Forms -/

/-- An address: one to eight hexadecimal digits, an optional minus sign and an optional `0x`. -/
def isAddress (s : Bytes) : Bool := isHexDigits (Bytes.dropLead hexMark (unsigned s))

/-- An integer: hexadecimal after `0x`, or decimal, with an optional minus sign. -/
def isInteger (s : Bytes) : Bool := isHexForm s || isDecimalDigits (unsigned s)

/-- A decimal with digits on both sides of its point. -/
def isFraction (s : Bytes) : Bool := match Bytes.cut? Byte.dot (unsigned s) with
  | some (whole, part) => isDecimalDigits whole && isDecimalDigits part
  | none => false

/-- The word for infinity in any case, with an optional minus sign. -/
def isInfinity (s : Bytes) : Bool := Bytes.lower (unsigned s) == ascii "infinity"

/-- The word for a value that is not a number, in any case. -/
def isNaN (s : Bytes) : Bool := Bytes.lower s == ascii "nan"

/-- A float: an integer, a decimal with a fraction, an infinity or a NaN. -/
def isFloat (s : Bytes) : Bool := isInteger s || isFraction s || isInfinity s || isNaN s

/-- A byte list: pairs of hexadecimal digits with one blank between them. -/
def isByteList (s : Bytes) : Bool :=
  (Bytes.split Byte.space s).all fun p => p.length == 2 && p.all Byte.isHex

/-! ## Values -/

/-- Whether `0x` stands in front, perhaps after a minus sign. -/
def isHexMarked (s : Bytes) : Bool := Bytes.startsWith hexMark s || Bytes.startsWith (ascii "-0x") s

/-- The value of hexadecimal digits after an optional minus sign and an optional `0x`. -/
def address (s : Bytes) : Except NumeralError Word :=
  match Numeral.hexWord (Bytes.dropLead hexMark (unsigned s)) with
  | .error e => .error e
  | .ok v => .ok (if Bytes.startsWith [Byte.minus] s then -v else v)

/-- The value of an integer. A decimal has to fit the signed 32-bit range, a hexadecimal literal is
a 32-bit pattern. -/
def integer (s : Bytes) : Except NumeralError Word :=
  if isHexMarked s then address s else Numeral.signedWord s

/-- The value of an integer in an unsigned sum: a decimal has no sign there. -/
def unsignedInteger (s : Bytes) : Except NumeralError Word :=
  if isHexMarked s then address s else Numeral.unsignedWord s

/-- The whole number spelled by decimal digits. -/
def digits (s : Bytes) : Nat := s.foldl (fun n c => n * 10 + (c.toNat - 0x30)) 0

/-- A decimal, with or without fraction, as a quotient. -/
def quotient (s : Bytes) : Quotient := match Bytes.cut? Byte.dot s with
  | some (whole, part) => ⟨digits (whole ++ part), Nat.pow 10 part.length⟩
  | none => ⟨digits s, 1⟩

/-- The pattern of a float. A hexadecimal literal is the pattern itself. -/
def float (s : Bytes) : Except NumeralError Word :=
  if isHexMarked s then integer s
  else if isNaN s then .ok Single.nan
  else
    let negative := Bytes.startsWith [Byte.minus] s
    if isInfinity s then
      .ok (if negative then Single.infinity ||| Single.signBit else Single.infinity)
    else .ok (Single.ofDecimal negative (quotient (unsigned s)))

/-- The bytes of a byte list. -/
def byteList (s : Bytes) : Bytes :=
  (Bytes.split Byte.space s).map fun p =>
    (p.foldl (fun n c => n * 16 + (Byte.digit? c).getD 0) 0).toUInt8

end CheatScript.Literal
