import CheatScript.Number.Shortest
import CheatScript.Text.Bytes
import CheatScript.Text.Numeral

/-!
# Numbers as texts

How a settings script reads a number from a text and writes a number into one. A text is first read
as a whole number of 64 bits, whose base is told by `0b`, `0o`, `0x` or a zero in front, and then as
a number with a point and an exponent, decimal or after `0x` hexadecimal. An underscore may stand
between two digits.
-/

namespace CheatScript.Lua.NumberText

/-! ## Reading -/

/-- Whether a text has a minus sign in front, and the text after its sign. -/
def unsigned (s : Bytes) : Bool × Bytes := match s with
  | [] => (false, [])
  | c :: rest =>
    if c = Byte.minus then (true, rest) else if c = Byte.plus then (false, rest) else (false, s)

/-- The value of digits in a base. Underscores between them do not count. -/
def digitsValue (base : Nat) (s : Bytes) : Nat :=
  (s.filter (· != Byte.underscore)).foldl (fun n c => n * base + (Byte.digit? c).getD 0) 0

/-- Whether every underscore stands between two digits. `after` tells whether the byte in front of
the text counts as a digit. -/
def separated (isDigit : UInt8 → Bool) : (after : Bool) → Bytes → Bool
  | _, [] => true
  | after, c :: s =>
    if c = Byte.underscore then after && s.head?.any isDigit && separated isDigit false s
    else separated isDigit (isDigit c) s

/-- Whether every underscore of a text without sign stands between two digits. The mark of a base
counts as a digit. -/
def isSeparated (s : Bytes) : Bool := match s with
  | 0x30 :: c :: rest =>
    if c = 0x62 || c = 0x42 || c = 0x6F || c = 0x4F then separated Byte.isDigit true rest
    else if c = 0x78 || c = 0x58 then separated Byte.isHex true rest
    else separated Byte.isDigit false s
  | _ => separated Byte.isDigit false s

/-- The base of a whole number without sign, and its digits. A letter marks the base only if
something follows it; a zero in front of anything else marks base eight. -/
def base (s : Bytes) : Nat × Bytes := match s with
  | 0x30 :: c :: d :: rest =>
    if c = 0x62 || c = 0x42 then (2, d :: rest)
    else if c = 0x6F || c = 0x4F then (8, d :: rest)
    else if c = 0x78 || c = 0x58 then (16, d :: rest)
    else (8, c :: d :: rest)
  | 0x30 :: rest => (8, rest)
  | _ => (10, s)

/-- A whole number that fits 64 bits. -/
def whole? (s : Bytes) : Option Int :=
  let (negative, s) := unsigned s
  let (base, digits) := base s
  let isDigit (c : UInt8) : Bool := c == Byte.underscore || (Byte.digit? c).any (· < base)
  let n : Int := digitsValue base digits
  let n := if negative then -n else n
  if !s.isEmpty && digits.all isDigit && isSeparated s && -0x8000000000000000 ≤ n
    && n < 0x8000000000000000 then some n
  else none

/-- The words for an infinity and for no number, in any case. -/
def word? (s : Bytes) : Option Double :=
  let (negative, name) := unsigned (Bytes.lower s)
  if name = ascii "inf" || name = ascii "infinity" then some (.infinite negative)
  else if Bytes.lower s = ascii "nan" then some .nan
  else none

/-- Digits of an exponent are counted until it reaches this bound, beyond which every number is zero
or too large. -/
def exponentBound : Nat := 10000

/-- The value of the digits of an exponent. -/
def exponentValue (s : Bytes) : Nat :=
  (s.filter (· != Byte.underscore)).foldl
    (fun n c => if n < exponentBound then n * 10 + (Byte.digit? c).getD 0 else n) 0

/-- The exponent that a text is, after the letter `mark` in either case. -/
def exponent? (mark : UInt8) (s : Bytes) : Option Int := match s with
  | [] => none
  | c :: rest =>
    let (negative, digits) := unsigned rest
    let n : Int := exponentValue digits
    if Byte.toLower c = mark && digits.head?.any Byte.isDigit
        && digits.all (fun c => Byte.isDigit c || c == Byte.underscore) then
      some (if negative then -n else n)
    else none

/-- Whether a text without sign is marked as hexadecimal. -/
def isHexadecimal : Bytes → Bool
  | 0x30 :: c :: _ :: _ => c == 0x78 || c == 0x58
  | _ => false

/-- A number with or without a point and an exponent. A hexadecimal one has an exponent, which is a
power of two. A number too large for double precision is refused. -/
def fraction? (s : Bytes) : Option Double := do
  let (negative, s) := unsigned s
  let hex := isHexadecimal s
  let body := if hex then s.drop 2 else s
  let isPart (c : UInt8) : Bool :=
    c == Byte.underscore || (if hex then Byte.isHex c else Byte.isDigit c)
  let whole := body.takeWhile isPart
  let rest := body.dropWhile isPart
  let (part, rest) := match rest with
    | [] => ([], [])
    | c :: tail =>
      if c = Byte.dot then (tail.takeWhile isPart, tail.dropWhile isPart) else ([], rest)
  let digits := (whole ++ part).filter (· != Byte.underscore)
  let places := part.countP (· != Byte.underscore)
  let power ←
    if hex then exponent? 0x70 rest else if rest.isEmpty then some 0 else exponent? 0x65 rest
  if digits.isEmpty || !isSeparated s then none
  let x :=
    if hex then
      Double.ofQuotient negative (Quotient.scale ⟨digitsValue 16 digits, 1⟩ (power - 4 * places))
    else Double.ofDecimal negative (digitsValue 10 digits) (power - places)
  match x with
  | .infinite _ => none
  | x => some x

/-- A blank around a number. -/
def isBlank (c : UInt8) : Bool := c == Byte.space || c == Byte.tab || c == Byte.newline

/-- The number that a text spells, blanks around it aside. -/
def read? (s : Bytes) : Option Double :=
  let s := Bytes.dropEndWhile isBlank (s.dropWhile isBlank)
  (whole? s).map Double.ofInt <|> word? s <|> fraction? s

/-! ## Writing -/

/-- A power of ten after `e`, with its sign and at least two digits. -/
def exponentText (e : Int) : Bytes :=
  let digits := Decimal.natural e.natAbs
  (if e < 0 then ascii "e-" else ascii "e+") ++
    (if digits.length < 2 then 0x30 :: digits else digits)

/-- The text of a positive number with the fewest digits: with an exponent when the first digit
stands for less than `10 ^ -4` or for at least `10 ^ 6`. -/
def positive (x : Scaled) : Bytes :=
  let d := Decimals.shortest x
  let all := Decimal.natural d.digits
  let first := d.exponent + (all.length : Int) - 1
  let digits := Bytes.dropEndWhile (· == 0x30) all
  if first < -4 || 6 ≤ first then
    digits.take 1 ++ (if 1 < digits.length then Byte.dot :: digits.drop 1 else [])
      ++ exponentText first
  else if first < 0 then
    ascii "0." ++ List.replicate (-first - 1).toNat 0x30 ++ digits
  else
    let whole := first.toNat + 1
    if digits.length ≤ whole then digits ++ List.replicate (whole - digits.length) 0x30
    else digits.take whole ++ Byte.dot :: digits.drop whole

/-- The text of a number. A whole number that fits 64 bits is written with all its digits, and both
zeros are written alike. -/
def write : Double → Bytes
  | .finite negative x =>
    let q := x.quotient
    let n : Int := q.num / q.den
    let n := if negative then -n else n
    if q.num % q.den = 0 && -0x8000000000000000 ≤ n && n < 0x8000000000000000 then Decimal.integer n
    else (if negative then [Byte.minus] else []) ++ positive x
  | .infinite negative => if negative then ascii "-Inf" else ascii "+Inf"
  | .nan => ascii "NaN"

end CheatScript.Lua.NumberText
