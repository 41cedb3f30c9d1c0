import CheatScript.Settings.Lua.NumberText

/-!
# Tokens of settings scripts

A script is a text of names, numbers, strings and symbols with blanks and comments between them.
Every kind of line ending counts as a newline.
-/

namespace CheatScript.Lua

/-- A token of a script. -/
inductive Token
  /-- A name or a word of the language. -/
  | name (s : Bytes)
  /-- A number. -/
  | number (n : Double)
  /-- A text. -/
  | string (s : Bytes)
  /-- An operator or a separator. -/
  | symbol (s : Bytes)
  deriving DecidableEq, Repr

/-- The operators and separators, the longer ones first. -/
def symbols : List Bytes :=
  ["...", "==", "~=", "..", "=", "+", "-", "(", ")", "\x7b", "\x7d", ";", ","].map ascii

/-! ## Numbers -/

/-- The first byte of a text with the digits after it, and the text after those. -/
def digitRun : Bytes → Bytes × Bytes
  | [] => ([], [])
  | c :: s => (c :: s.takeWhile Byte.isDigit, s.dropWhile Byte.isDigit)

/-- The exponent at the start of a text, and the text after it. The byte after the letter and its
sign belongs to the exponent whatever it is. -/
def exponentRun (s : Bytes) : Bytes × Bytes := match s with
  | [] => ([], [])
  | c :: rest =>
    if Byte.toLower c = 0x65 then match rest with
      | [] => ([c], [])
      | sign :: tail =>
        if sign = Byte.minus || sign = Byte.plus then
          let (digits, rest) := digitRun tail
          (c :: sign :: digits, rest)
        else
          let (digits, rest) := digitRun rest
          (c :: digits, rest)
    else ([], s)

/-- The decimal numeral at the start of a text, and the text after it. -/
def decimalRun (s : Bytes) : Bytes × Bytes :=
  let (whole, s) := digitRun s
  let (part, s) := if s.head? = some Byte.dot then digitRun s else ([], s)
  let (exponent, s) := exponentRun s
  (whole ++ part ++ exponent, s)

/-- The numeral at the start of a text, and the text after it; none if `0x` stands without digits. A
zero in front of another digit is left out. -/
def numeral? (s : Bytes) : Option (Bytes × Bytes) := match s with
  | 0x30 :: c :: rest =>
    if Byte.toLower c = 0x78 then
      let digits := rest.takeWhile Byte.isHex
      if digits.isEmpty then none else some (0x30 :: c :: digits, rest.dropWhile Byte.isHex)
    else if Byte.isDigit c then some (decimalRun (c :: rest))
    else some (decimalRun s)
  | _ => some (decimalRun s)

/-- The number of a numeral. A numeral that spells none is no number. -/
def numeralValue (s : Bytes) : Double := (NumberText.read? s).getD .nan

/-! ## Strings and comments -/

/-- The byte of an escape with a letter. -/
def letterEscape? (c : UInt8) : Option UInt8 :=
  [(0x61, 0x07), (0x62, 0x08), (0x66, 0x0C), (0x6E, 0x0A), (0x72, 0x0D), (0x74, 0x09),
   (0x76, 0x0B)].lookup c

/-- The bytes that an escape stands for, given what follows its backslash, and the number of bytes
of the escape after the backslash. Digits are the number of a byte; a byte without a meaning of its
own stands for itself. -/
def escape (s : Bytes) : Bytes × Nat := match s with
  | [] => ([], 0)
  | c :: _ =>
    let digits := (s.take 3).takeWhile Byte.isDigit
    if digits.isEmpty then ([(letterEscape? c).getD c], 1)
    else ([(NumberText.digitsValue 10 digits).toUInt8], digits.length)

/-- The text of a string after its opening mark and `skip` more bytes, and the text after its
closing mark. -/
def quoted? (mark : UInt8) : (skip : Nat) → Bytes → Option (Bytes × Bytes)
  | _, [] => none
  | skip + 1, _ :: s => quoted? mark skip s
  | 0, c :: s =>
    if c = mark then some ([], s)
    else if c = Byte.backslash then
      let (bytes, n) := escape s
      (quoted? mark n s).map fun (text, rest) => (bytes ++ text, rest)
    else if c = Byte.newline then none
    else (quoted? mark 0 s).map fun (text, rest) => (c :: text, rest)

/-- The text up to the first `close`, and the text after that. -/
def upTo? (close : Bytes) : Bytes → Option (Bytes × Bytes)
  | [] => (Bytes.after? close []).map fun rest => ([], rest)
  | c :: s => match Bytes.after? close (c :: s) with
    | some rest => some ([], rest)
    | none => (upTo? close s).map fun (text, rest) => (c :: text, rest)

/-- What closes a long bracket at the start of a text, and the text inside and after the bracket. A
long bracket is opened by two brackets with equals signs between them and closed by as many. -/
def longOpening? : Bytes → Option (Bytes × Bytes)
  | 0x5B :: s =>
    let signs := s.takeWhile (· == Byte.equals)
    match s.dropWhile (· == Byte.equals) with
    | 0x5B :: rest => some (0x5D :: signs ++ [0x5D], rest)
    | _ => none
  | _ => none

/-- The text in a long bracket, without a newline at its start, and the text after the bracket. -/
def long? (s : Bytes) : Option (Bytes × Bytes) := do
  let (close, rest) ← longOpening? s
  upTo? close (Bytes.dropLead [Byte.newline] rest)

/-- Whether a text starts like a long bracket. -/
def isLong : Bytes → Bool
  | 0x5B :: c :: _ => c == 0x5B || c == Byte.equals
  | _ => false

/-- The text after a comment, given what follows its dashes. -/
def afterComment? (s : Bytes) : Option Bytes :=
  if isLong s then (long? s).map Prod.snd else some (s.dropWhile (· != Byte.newline))

/-! ## Texts -/

/-- A letter or an underscore. -/
def isLetter (c : UInt8) : Bool := Byte.isWord c && !Byte.isDigit c

/-- One token at the start of a text, and the text after it. -/
def token? (s : Bytes) : Option (Token × Bytes) := match s with
  | [] => none
  | c :: rest =>
    if isLetter c then some (.name (s.takeWhile Byte.isWord), s.dropWhile Byte.isWord)
    else if Byte.isDigit c || (c = Byte.dot && rest.head?.any Byte.isDigit) then
      (numeral? s).map fun (text, rest) => (.number (numeralValue text), rest)
    else if c = Byte.quote || c = Byte.apostrophe then
      (quoted? c 0 rest).map fun (text, rest) => (.string text, rest)
    else if isLong s then (long? s).map fun (text, rest) => (.string text, rest)
    else symbols.findSome? fun symbol =>
      (Bytes.after? symbol s).map fun rest => (.symbol symbol, rest)

/-- The text with every line ending, one byte or a pair of different ones, as a newline. -/
def newlines : Bytes → Bytes
  | [] => []
  | 0x0A :: 0x0D :: s => Byte.newline :: newlines s
  | 0x0D :: 0x0A :: s => Byte.newline :: newlines s
  | 0x0D :: s => Byte.newline :: newlines s
  | c :: s => c :: newlines s

/-- The tokens of a text; none if a part of it is no token. Every token has at least one byte, so
the length of the text is fuel enough. -/
def tokens? : (fuel : Nat) → Bytes → Option (List Token)
  | _, [] => some []
  | 0, _ :: _ => none
  | fuel + 1, c :: s =>
    if NumberText.isBlank c then tokens? fuel s
    else match Bytes.after? (ascii "--") (c :: s) with
      | some rest => (afterComment? rest).bind (tokens? fuel)
      | none => match token? (c :: s) with
        | none => none
        | some (token, rest) => (tokens? fuel rest).map (token :: ·)

end CheatScript.Lua
