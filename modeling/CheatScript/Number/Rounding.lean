/-!
# Rounding to a binary format

Exact rounding of a non-negative rational to a binary floating-point format, to the nearest value
and on a tie to the even one. Everything is integer arithmetic, so a decimal of any length is
rounded correctly. A value too large for the format has no rounding (`none`); the caller makes it an
infinity.
-/

namespace CheatScript

/-- A binary floating-point format. -/
structure FloatFormat where
  /-- The number of bits of a significand, the leading one included. -/
  precision : Nat
  /-- The exponent of the smallest normal power of two. -/
  minExponent : Int
  /-- The exponent of the largest power of two. -/
  maxExponent : Int

/-- Single precision. -/
def binary32 : FloatFormat := ⟨24, -126, 127⟩

/-- Double precision. -/
def binary64 : FloatFormat := ⟨53, -1022, 1023⟩

/-- The number `mantissa * 2 ^ exponent`. -/
structure Scaled where
  /-- The whole number that is scaled. -/
  mantissa : Nat
  /-- The power of two it is scaled by. -/
  exponent : Int
  deriving DecidableEq, Repr

/-- A non-negative quotient of whole numbers. -/
structure Quotient where
  /-- The dividend. -/
  num : Nat
  /-- The divisor, not zero. -/
  den : Nat

namespace Quotient

/-- The quotient scaled by a power of two. -/
def scale (x : Quotient) : Int → Quotient
  | .ofNat k => { x with num := x.num <<< k }
  | .negSucc k => { x with den := x.den <<< (k + 1) }

/-- The whole number nearest to the quotient, the even one of two. -/
def nearest (x : Quotient) : Nat :=
  let q := x.num / x.den
  let r := x.num % x.den
  if 2 * r < x.den then q else if x.den < 2 * r then q + 1 else q + q % 2

/-- The exponent of the largest power of two that does not pass a positive quotient. -/
def log2 (x : Quotient) : Int :=
  let k : Int := x.num.log2 - x.den.log2
  let y := x.scale (-k)
  if y.den ≤ y.num then k else k - 1

/-- The value of a format nearest to the quotient; none if that passes the largest one. -/
def round (x : Quotient) (f : FloatFormat) : Option Scaled :=
  if x.num = 0 then some ⟨0, f.minExponent - f.precision + 1⟩
  else
    let e := max x.log2 f.minExponent
    let unit := e - f.precision + 1
    let m := (x.scale (-unit)).nearest
    if f.maxExponent < e || (m == 1 <<< f.precision && f.maxExponent ≤ e) then none
    else some ⟨m, unit⟩

end Quotient

/-- A scaled number as a quotient. -/
def Scaled.quotient (x : Scaled) : Quotient := Quotient.scale ⟨x.mantissa, 1⟩ x.exponent

end CheatScript
