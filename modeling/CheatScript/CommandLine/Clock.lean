import CheatScript.Text.Numeral

/-!
# Dates and durations

The texts of a point in time and of a length of time.
-/

namespace CheatScript.Clock

/-- A date of the Gregorian calendar. -/
structure Date where
  /-- The year. -/
  year : Int
  /-- The month, from one on. -/
  month : Nat
  /-- The day of the month, from one on. -/
  day : Nat
  deriving DecidableEq, Repr

/-- The date a number of days after the first of January 1970. Years are counted from March on, so
that the day a leap year adds is its last one; 400 such years have 146097 days. -/
def dateOfDays (days : Int) : Date :=
  let shifted := days + 719468
  let era := shifted.fdiv 146097
  let dayOfEra := (shifted.fmod 146097).toNat
  let yearOfEra := (dayOfEra - dayOfEra / 1460 + dayOfEra / 36524 - dayOfEra / 146096) / 365
  let dayOfYear := dayOfEra - (365 * yearOfEra + yearOfEra / 4 - yearOfEra / 100)
  let shiftedMonth := (5 * dayOfYear + 2) / 153
  let day := dayOfYear - (153 * shiftedMonth + 2) / 5 + 1
  let month := if shiftedMonth < 10 then shiftedMonth + 3 else shiftedMonth - 9
  let year : Int := yearOfEra + era * 400
  ⟨if month ≤ 2 then year + 1 else year, month, day⟩

/-- A number with at least a number of digits. -/
def padded (width n : Nat) : Bytes :=
  let digits := Decimal.natural n
  List.replicate (width - digits.length) 0x30 ++ digits

/-- The text `YYYY-MM-DD hh:mm:ss` of a number of seconds after the start of 1970. -/
def stamp (seconds : Int) : Bytes :=
  let date := dateOfDays (seconds.fdiv 86400)
  let s := (seconds.fmod 86400).toNat
  padded 4 date.year.toNat ++ ascii "-" ++ padded 2 date.month ++ ascii "-" ++ padded 2 date.day
    ++ ascii " " ++ padded 2 (s / 3600) ++ ascii ":" ++ padded 2 (s / 60 % 60) ++ ascii ":"
    ++ padded 2 (s % 60)

/-- A quotient by a power of ten as a decimal without zeros at its end. -/
def decimal (n : Nat) (places : Nat) : Bytes :=
  let part := Bytes.dropEndWhile (· == 0x30) (padded places (n % Nat.pow 10 places))
  Decimal.natural (n / Nat.pow 10 places) ++ (if part.isEmpty then [] else Byte.dot :: part)

/-- The text of a number of microseconds in the largest fitting unit up to seconds. -/
def duration (micros : Nat) : Bytes :=
  if micros = 0 then ascii "0s"
  else if micros < 1000 then Decimal.natural micros ++ [0xC2, 0xB5] ++ ascii "s"
  else if micros < 1000000 then decimal micros 3 ++ ascii "ms"
  else decimal micros 6 ++ ascii "s"

end CheatScript.Clock
