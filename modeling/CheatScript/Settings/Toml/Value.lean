import CheatScript.Text.Bytes
import CheatScript.Text.Numeral
import CheatScript.Text.Utf8

/-!
# Values of TOML files

The values that a setting can have: truth values, numbers and strings.
-/

namespace CheatScript.Toml

/-- A value. -/
inductive Value
  /-- A truth value. -/
  | boolean (b : Bool)
  /-- A whole number. -/
  | integer (n : Int)
  /-- A text. -/
  | string (s : Bytes)
  /-- A number with a fraction or an exponent. -/
  | float
  deriving DecidableEq, Repr

/-- The name of the type of a value. -/
def Value.typeName : Value → Bytes
  | .boolean _ => ascii "boolean"
  | .integer _ => ascii "integer"
  | .string _ => ascii "string"
  | .float => ascii "float"

/-- A blank inside a line. -/
def isSpace (c : UInt8) : Bool := c == Byte.space || c == Byte.tab

/-- A byte that ends a line. -/
def isLineEnd (c : UInt8) : Bool := c == Byte.newline || c == Byte.carriage

/-- A byte of a comment or of a literal string: anything but the control characters, of which only
the tab is allowed. -/
def isCommentByte (c : UInt8) : Bool := c == Byte.tab || Byte.space ≤ c

/-- The text without the blanks in front. -/
def skipSpace (s : Bytes) : Bytes := s.dropWhile isSpace

/-- Digits with single underscores between them: the digits and the text after them. `after` tells
whether the last byte was a digit. -/
def digitRun : (after : Bool) → Bytes → Bytes × Bytes
  | _, [] => ([], [])
  | after, c :: s =>
    if Byte.isDigit c then
      let (digits, rest) := digitRun true s
      (c :: digits, rest)
    else if c = Byte.underscore && after && s.head?.any Byte.isDigit then digitRun false s
    else ([], c :: s)

/-- The value of decimal digits. -/
def digitsValue (s : Bytes) : Nat := s.foldl (fun n c => n * 10 + (c.toNat - 0x30)) 0

/-- The text after a fraction. -/
def afterFraction? (s : Bytes) : Option Bytes := match s with
  | c :: rest =>
    if c = Byte.dot then
      let (digits, rest) := digitRun false rest
      if digits.isEmpty then none else some rest
    else none
  | [] => none

/-- A whole number with an optional sign and no zeros in front, and the text after it. -/
def integer? (s : Bytes) : Option (Int × Bytes) :=
  let (negative, digits) := match s with
    | c :: rest =>
      if c = Byte.minus then (true, rest) else if c = Byte.plus then (false, rest) else (false, s)
    | [] => (false, s)
  let (run, rest) := digitRun false digits
  if run.isEmpty || (1 < run.length && run.head? == some 0x30) then none
  else
    let n : Int := digitsValue run
    some (if negative then -n else n, rest)

/-- The text after an exponent. -/
def afterExponent? (s : Bytes) : Option Bytes := match s with
  | c :: rest => if c = 0x65 || c = 0x45 then (integer? rest).map Prod.snd else none
  | [] => none

/-- A number, and the text after it. -/
def number? (s : Bytes) : Option (Value × Bytes) := match integer? s with
  | none => none
  | some (n, rest) => match afterFraction? rest with
    | some rest => some (.float, (afterExponent? rest).getD rest)
    | none => match afterExponent? rest with
      | some rest => some (.float, rest)
      | none => if -0x8000000000000000 ≤ n && n < 0x8000000000000000 then
        some (.integer n, rest) else none

/-- The character of hexadecimal digits, if there is one. -/
def hexChar? (digits : Bytes) : Option Char := do
  let n ← (Numeral.read 16 0x10FFFF digits).toOption
  if 0xD800 ≤ n && n ≤ 0xDFFF then none else some (Char.ofNat n)

/-- The byte of an escape with a letter. -/
def letterEscape? (c : UInt8) : Option UInt8 :=
  [(0x62, 0x08), (0x74, 0x09), (0x6E, 0x0A), (0x66, 0x0C), (0x72, 0x0D), (Byte.quote, Byte.quote),
   (Byte.backslash, Byte.backslash)].lookup c

/-- The bytes that an escape stands for, given what follows its backslash, and the number of bytes
of the escape after the backslash. -/
def escape? (s : Bytes) : Option (Bytes × Nat) := match s with
  | [] => none
  | c :: rest =>
    let wide (n : Nat) : Option (Bytes × Nat) :=
      if (rest.take n).length = n then
        (hexChar? (rest.take n)).map fun ch => (Utf8.encode [ch], n + 1)
      else none
    if c = 0x75 then wide 4 else if c = 0x55 then wide 8
    else (letterEscape? c).map fun b => ([b], 1)

/-- The text of a string after its opening quote and `skip` more bytes, and the text after its
closing quote. -/
def basicString? : (skip : Nat) → Bytes → Option (Bytes × Bytes)
  | _, [] => none
  | skip + 1, _ :: s => basicString? skip s
  | 0, c :: s =>
    if c = Byte.quote then some ([], s)
    else if c = Byte.backslash then match escape? s with
      | none => none
      | some (bytes, n) => (basicString? n s).map fun (text, rest) => (bytes ++ text, rest)
    else if c < Byte.space then none
    else (basicString? 0 s).map fun (text, rest) => (c :: text, rest)

/-- The text of a string over several lines after its opening quotes and `skip` more bytes, and the
text after its closing quotes. A backslash at the end of a line takes the blanks and line ends after
it away. -/
def longBasicString? : (skip : Nat) → Bytes → Option (Bytes × Bytes)
  | _, [] => none
  | skip + 1, _ :: s => longBasicString? skip s
  | 0, c :: s => match Bytes.after? (ascii "\"\"\"") (c :: s) with
    | some rest => some ([], rest)
    | none =>
      if c = Byte.backslash then match escape? s with
        | some (bytes, n) => (longBasicString? n s).map fun (text, rest) => (bytes ++ text, rest)
        | none =>
          if s.head?.any isLineEnd then
            longBasicString? (s.takeWhile fun c => isSpace c || isLineEnd c).length s
          else none
      else if c = Byte.quote || (c < Byte.space && !isLineEnd c) then none
      else (longBasicString? 0 s).map fun (text, rest) => (c :: text, rest)

/-- The text between apostrophes, and the text after them. -/
def literalString? (s : Bytes) : Option (Bytes × Bytes) := match Bytes.cut? Byte.apostrophe s with
  | none => none
  | some (text, rest) => if text.all isCommentByte then some (text, rest) else none

/-- The text of a literal string over several lines after its opening apostrophes, and the text
after its closing ones. -/
def longLiteralString? : Bytes → Option (Bytes × Bytes)
  | [] => none
  | c :: s => match Bytes.after? (ascii "\'\'\'") (c :: s) with
    | some rest => some ([], rest)
    | none =>
      if isCommentByte c || isLineEnd c then
        (longLiteralString? s).map fun (text, rest) => (c :: text, rest)
      else none

/-- A string over several lines, and the text after it. Line ends after the opening marks do not
count. -/
def longString? (s : Bytes) : Option (Bytes × Bytes) :=
  match Bytes.after? (ascii "\"\"\"") s with
  | some rest => longBasicString? 0 (rest.dropWhile isLineEnd)
  | none => match Bytes.after? (ascii "\'\'\'") s with
    | some rest => longLiteralString? (rest.dropWhile isLineEnd)
    | none => none

/-- A string, and the text after it. -/
def string? (s : Bytes) : Option (Bytes × Bytes) := match longString? s with
  | some found => some found
  | none => match s with
    | [] => none
    | c :: rest =>
      if c = Byte.quote then basicString? 0 rest
      else if c = Byte.apostrophe then literalString? rest
      else none

/-- A value, and the text after it. -/
def value? (s : Bytes) : Option (Value × Bytes) :=
  match Bytes.after? (ascii "true") s with
  | some rest => some (.boolean true, rest)
  | none => match Bytes.after? (ascii "false") s with
    | some rest => some (.boolean false, rest)
    | none => match string? s with
      | some (text, rest) => some (.string text, rest)
      | none => number? s

end CheatScript.Toml
