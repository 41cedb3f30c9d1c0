import CheatScript.Text.Bytes

/-!
# UTF-8 and UTF-16

A byte string is read as UTF-8 without ever failing: a byte that does not belong to a well-formed
sequence stands for itself (`Rune.stray`). Where a character is needed in its place it is U+FFFD,
the replacement character. Well-formed means what the standard says: shortest form only, no
surrogates, nothing above U+10FFFF.
-/

namespace CheatScript

/-- One unit of a byte string read as UTF-8. -/
inductive Rune
  /-- A well-formed character. -/
  | scalar (c : Char)
  /-- A byte outside every well-formed sequence. -/
  | stray (b : UInt8)
  deriving DecidableEq, Repr

/-- The replacement character U+FFFD. -/
def replacement : Char := Char.ofNat 0xFFFD

/-- The character a unit stands for; a stray byte stands for the replacement character. -/
def Rune.char : Rune → Char
  | .scalar c => c
  | .stray _ => replacement

namespace Utf8

/-- A continuation byte. -/
def isTail (b : UInt8) : Bool := 0x80 ≤ b && b ≤ 0xBF

/-- The payload of a continuation byte. -/
def payload (b : UInt8) : Nat := b.toNat % 64

/-- Whether `b` may follow the leading byte `a` of a three-byte sequence. -/
def isSecondOfThree (a b : UInt8) : Bool :=
  if a = 0xE0 then 0xA0 ≤ b && b ≤ 0xBF else if a = 0xED then 0x80 ≤ b && b ≤ 0x9F else isTail b

/-- Whether `b` may follow the leading byte `a` of a four-byte sequence. -/
def isSecondOfFour (a b : UInt8) : Bool :=
  if a = 0xF0 then 0x90 ≤ b && b ≤ 0xBF else if a = 0xF4 then 0x80 ≤ b && b ≤ 0x8F else isTail b

/-- The character that the leading byte `a` and the bytes `s` after it start with, and the number of
bytes of `s` that belong to it. -/
def lead? (a : UInt8) (s : Bytes) : Option (Char × Nat) :=
  if a < 0x80 then some (Char.ofNat a.toNat, 0)
  else if 0xC2 ≤ a && a ≤ 0xDF then
    match s with
    | b :: _ =>
      if isTail b then some (Char.ofNat (a.toNat % 32 * 64 + payload b), 1) else none
    | _ => none
  else if 0xE0 ≤ a && a ≤ 0xEF then
    match s with
    | b :: c :: _ =>
      if isSecondOfThree a b && isTail c then
        some (Char.ofNat ((a.toNat % 16 * 64 + payload b) * 64 + payload c), 2)
      else none
    | _ => none
  else if 0xF0 ≤ a && a ≤ 0xF4 then
    match s with
    | b :: c :: d :: _ =>
      if isSecondOfFour a b && isTail c && isTail d then
        some (Char.ofNat (((a.toNat % 8 * 64 + payload b) * 64 + payload c) * 64 + payload d), 3)
      else none
    | _ => none
  else none

/-- The units of a byte string after `skip` more bytes. -/
def unitsFrom : (skip : Nat) → Bytes → List Rune
  | _, [] => []
  | skip + 1, _ :: s => unitsFrom skip s
  | 0, a :: s => match lead? a s with
    | some (c, n) => .scalar c :: unitsFrom n s
    | none => .stray a :: unitsFrom 0 s

/-- The units of a byte string. -/
def units (s : Bytes) : List Rune := unitsFrom 0 s

/-- The characters of a byte string, U+FFFD for each stray byte. -/
def decode (s : Bytes) : List Char := (units s).map Rune.char

/-- The UTF-8 form of a list of characters. -/
def encode (cs : List Char) : Bytes := cs.flatMap String.utf8EncodeChar

end Utf8

namespace Utf16

/-- A 16-bit unit, low byte first. -/
def littleEndian (u : Nat) : Bytes := [(u % 256).toUInt8, (u / 256).toUInt8]

/-- A character as one unit, or as a surrogate pair above U+FFFF. -/
def encodeChar (c : Char) : Bytes :=
  if c.toNat < 0x10000 then littleEndian c.toNat
  else
    let rest := c.toNat - 0x10000
    littleEndian (0xD800 + rest / 0x400) ++ littleEndian (0xDC00 + rest % 0x400)

/-- The little-endian UTF-16 form of a list of characters, without a byte order mark. -/
def encode (cs : List Char) : Bytes := cs.flatMap encodeChar

end Utf16

end CheatScript
