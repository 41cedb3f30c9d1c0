import CheatScript.Number.Double

/-!
# The fewest digits

A double-precision number has many decimals that read back as the same number. The shortest of them
is found by trying one digit, two digits and so on: of all decimals with a number of digits only the
two next to the number can be the one, since the decimals that read back lie around the number
without a gap. Seventeen digits are always enough.
-/

namespace CheatScript

/-- Decimal digits and the power of ten they are scaled by. -/
structure Decimals where
  /-- The digits as a whole number. -/
  digits : Nat
  /-- The power of ten. -/
  exponent : Int
  deriving DecidableEq, Repr

namespace Decimals

/-- The quotient divided by a power of ten. -/
def scaleDown (x : Quotient) (exponent : Int) : Quotient := match exponent with
  | .ofNat k => { x with den := x.den * Nat.pow 10 k }
  | .negSucc k => { x with num := x.num * Nat.pow 10 (k + 1) }

/-- The power of ten of the first digit of a positive quotient: the greatest one not above it,
searched downwards from `top` over at most `steps` powers. -/
def leading (x : Quotient) : (steps : Nat) → (top : Int) → Int
  | 0, top => top
  | steps + 1, top =>
    let y := scaleDown x top
    if y.den ≤ y.num then top else leading x steps (top - 1)

/-- The two multiples of a power of ten next to a quotient, the nearer one first and of two as near
the even one. -/
def neighbours (x : Quotient) (exponent : Int) : List Decimals :=
  let y := scaleDown x exponent
  let below := y.num / y.den
  if y.nearest = below then [⟨below, exponent⟩, ⟨below + 1, exponent⟩]
  else [⟨below + 1, exponent⟩, ⟨below, exponent⟩]

/-- Whether digits read back as a positive number. -/
def readsBack (x : Scaled) (d : Decimals) : Bool :=
  (Double.ofDecimal false d.digits d.exponent).eq (.finite false x)

/-- The greatest power of ten that a double-precision number reaches. -/
def topPower : Int := 308

/-- The number of powers of ten from the greatest double-precision number down to the least. -/
def powers : Nat := 632

/-- The fewest digits that read back as a positive number, and of two decimals with as many digits
the nearer one. -/
def shortest (x : Scaled) : Decimals :=
  let q := x.quotient
  let first := leading q powers topPower
  let candidates := (List.range 17).flatMap fun (n : Nat) => neighbours q (first - n)
  (candidates.find? (readsBack x)).getD ⟨0, 0⟩

end Decimals

end CheatScript
