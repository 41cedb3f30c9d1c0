import CheatScript.Number.Rounding
import CheatScript.Text.Numeral

/-!
# Single-precision patterns

Float values are 32-bit patterns: one sign bit, eight exponent bits and 23 fraction bits. A decimal
is rounded to double precision first and to single precision after that, as the code tools of the
console do it, and a sum is rounded once. The patterns of the special results are part of the
format: the sum of opposite infinities is `FFC00000`, and a sum with a NaN gives that NaN with its
quiet bit set.
-/

namespace CheatScript.Single

/-- The sign bit. -/
def signBit : Word := 0x80000000#32

/-- The pattern of the positive infinity. -/
def infinity : Word := 0x7F800000#32

/-- The pattern of a NaN that is not the result of another one. -/
def nan : Word := 0xFFC00000#32

/-- The pattern of a value of the format, without sign. -/
def magnitude (x : Scaled) : Word :=
  if x.mantissa < 0x800000 then BitVec.ofNat 32 x.mantissa
  else BitVec.ofNat 32 ((x.exponent + 150).toNat * 0x800000 + (x.mantissa - 0x800000))

/-- The pattern nearest to a quotient, with the given sign. -/
def ofQuotient (negative : Bool) (x : Quotient) : Word :=
  let bits := match x.round binary32 with
    | some y => magnitude y
    | none => infinity
  if negative then bits ||| signBit else bits

/-- The pattern of a decimal, rounded to double precision on the way. -/
def ofDecimal (negative : Bool) (x : Quotient) : Word :=
  match x.round binary64 with
  | some y => ofQuotient negative y.quotient
  | none => if negative then infinity ||| signBit else infinity

/-- The exponent field. -/
def exponentField (w : Word) : Nat := w.toNat / 0x800000 % 256

/-- The fraction field. -/
def fraction (w : Word) : Nat := w.toNat % 0x800000

/-- Whether the sign bit is set. -/
def isNegative (w : Word) : Bool := w.msb

/-- Whether a pattern is a NaN. -/
def isNaN (w : Word) : Bool := exponentField w == 255 && fraction w != 0

/-- Whether a pattern is an infinity. -/
def isInfinite (w : Word) : Bool := exponentField w == 255 && fraction w == 0

/-- The magnitude of a finite pattern. -/
def value (w : Word) : Scaled :=
  if exponentField w = 0 then ⟨fraction w, -149⟩
  else ⟨fraction w + 0x800000, (exponentField w : Int) - 150⟩

/-- The signed whole number of units `2 ^ unit` in a finite pattern, for `unit` at most its
exponent. -/
def unitsOf (w : Word) (unit : Int) : Int :=
  let n : Int := ((value w).mantissa <<< ((value w).exponent - unit).toNat : Nat)
  if isNegative w then -n else n

/-- The sum of two finite patterns. A sum of zero is negative only if both terms are. -/
def addFinite (a b : Word) : Word :=
  let unit := min (value a).exponent (value b).exponent
  let n := unitsOf a unit + unitsOf b unit
  if n = 0 then (if isNegative a && isNegative b then signBit else 0#32)
  else ofQuotient (n < 0) (Scaled.quotient ⟨n.natAbs, unit⟩)

/-- The sum of two patterns. -/
def add (a b : Word) : Word :=
  if isNaN a then a ||| 0x00400000#32
  else if isNaN b then b ||| 0x00400000#32
  else if isInfinite a then (if isInfinite b && a != b then nan else a)
  else if isInfinite b then b
  else addFinite a b

end CheatScript.Single
