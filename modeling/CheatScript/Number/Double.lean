import CheatScript.Number.Rounding

/-!
# Double-precision numbers

The numbers of a settings script. Every operation is the exact one rounded once to double precision.
-/

namespace CheatScript

/-- A double-precision number. -/
inductive Double
  /-- A finite number. -/
  | finite (negative : Bool) (magnitude : Scaled)
  /-- An infinity. -/
  | infinite (negative : Bool)
  /-- No number. -/
  | nan
  deriving DecidableEq, Repr

namespace Double

/-- The number nearest to a quotient, with the given sign. -/
def ofQuotient (negative : Bool) (x : Quotient) : Double := match x.round binary64 with
  | some y => .finite negative y
  | none => .infinite negative

/-- The number nearest to a decimal: digits times a power of ten, with the given sign. -/
def ofDecimal (negative : Bool) (digits : Nat) (exponent : Int) : Double := match exponent with
  | .ofNat k => ofQuotient negative ⟨digits * Nat.pow 10 k, 1⟩
  | .negSucc k => ofQuotient negative ⟨digits, Nat.pow 10 (k + 1)⟩

/-- A whole number. -/
def ofInt (n : Int) : Double := ofQuotient (n < 0) ⟨n.natAbs, 1⟩

/-- The number with the opposite sign. -/
def neg : Double → Double
  | .finite s x => .finite (!s) x
  | .infinite s => .infinite (!s)
  | .nan => .nan

/-- The signed number of units `2 ^ unit` in a finite number, for `unit` at most its exponent. -/
def unitsOf (negative : Bool) (x : Scaled) (unit : Int) : Int :=
  let n : Int := (x.mantissa <<< (x.exponent - unit).toNat : Nat)
  if negative then -n else n

/-- The sum of two numbers. A sum of zero is negative only if both terms are. -/
def add : Double → Double → Double
  | .nan, _ | _, .nan => .nan
  | .infinite s, .infinite t => if s = t then .infinite s else .nan
  | .infinite s, _ | _, .infinite s => .infinite s
  | .finite s x, .finite t y =>
    let unit := min x.exponent y.exponent
    let n := unitsOf s x unit + unitsOf t y unit
    if n = 0 then .finite (s && t) ⟨0, -1074⟩
    else ofQuotient (n < 0) (Scaled.quotient ⟨n.natAbs, unit⟩)

/-- Whether two numbers are equal. The zeros are, and no number that is none. -/
def eq : Double → Double → Bool
  | .finite s x, .finite t y =>
    let unit := min x.exponent y.exponent
    unitsOf s x unit == unitsOf t y unit
  | .infinite s, .infinite t => s == t
  | _, _ => false

/-- The whole number next to a number towards zero. What does not fit 64 bits is the least number
that does. -/
def truncate : Double → Int
  | .finite s x =>
    let q := x.quotient
    let n : Int := q.num / q.den
    let n := if s then -n else n
    if -0x8000000000000000 ≤ n && n < 0x8000000000000000 then n else -0x8000000000000000
  | _ => -0x8000000000000000

end Double

end CheatScript
