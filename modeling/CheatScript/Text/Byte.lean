/-!
# Bytes

Scripts, code files and settings are byte strings: nothing promises that they are valid UTF-8, and a
diagnostic has to show the very bytes that were read. This module names the bytes that mean
something in a script and the classes of bytes the readers ask for. All classes are ASCII; white
space beyond ASCII is the subject of `CheatScript.Text.Space`.
-/

namespace CheatScript

/-- A byte string. -/
abbrev Bytes := List UInt8

instance : LawfulBEq Bytes := inferInstance

/-- The bytes of an ASCII text. Characters beyond ASCII have no place in its argument. -/
def ascii (s : String) : Bytes := s.toByteArray.data.toList

namespace Byte

/-! ## Named bytes -/

/-- Horizontal tab. -/
abbrev tab : UInt8 := 0x09
/-- Line feed. -/
abbrev newline : UInt8 := 0x0A
/-- Carriage return. -/
abbrev carriage : UInt8 := 0x0D
/-- Blank. -/
abbrev space : UInt8 := 0x20
/-- Double quote. -/
abbrev quote : UInt8 := 0x22
/-- Dollar sign. -/
abbrev dollar : UInt8 := 0x24
/-- Single quote. -/
abbrev apostrophe : UInt8 := 0x27
/-- Opening parenthesis. -/
abbrev opening : UInt8 := 0x28
/-- Closing parenthesis. -/
abbrev closing : UInt8 := 0x29
/-- Star. -/
abbrev star : UInt8 := 0x2A
/-- Plus sign. -/
abbrev plus : UInt8 := 0x2B
/-- Comma. -/
abbrev comma : UInt8 := 0x2C
/-- Minus sign. -/
abbrev minus : UInt8 := 0x2D
/-- Full stop. -/
abbrev dot : UInt8 := 0x2E
/-- Slash. -/
abbrev slash : UInt8 := 0x2F
/-- Colon. -/
abbrev colon : UInt8 := 0x3A
/-- Equals sign. -/
abbrev equals : UInt8 := 0x3D
/-- Backslash. -/
abbrev backslash : UInt8 := 0x5C
/-- Underscore. -/
abbrev underscore : UInt8 := 0x5F

/-! ## Classes -/

/-- The six blanks that separate words: space, tab, newline, carriage return, form feed and
vertical tab. -/
def isBlank (c : UInt8) : Bool := c == space || (tab ≤ c && c ≤ carriage)

/-- A blank other than the vertical tab: what may stand between the parts of a clause or of a patch
line. -/
def isGap (c : UInt8) : Bool := isBlank c && c != 0x0B

/-- A decimal digit. -/
def isDigit (c : UInt8) : Bool := 0x30 ≤ c && c ≤ 0x39

/-- An ASCII letter in upper case. -/
def isUpper (c : UInt8) : Bool := 0x41 ≤ c && c ≤ 0x5A

/-- An ASCII letter in lower case. -/
def isLower (c : UInt8) : Bool := 0x61 ≤ c && c ≤ 0x7A

/-- An ASCII letter, a digit or an underscore. -/
def isWord (c : UInt8) : Bool := isUpper c || isLower c || isDigit c || c == underscore

/-- The upper-case form of an ASCII letter; other bytes stay. -/
def toUpper (c : UInt8) : UInt8 := if isLower c then c - 0x20 else c

/-- The lower-case form of an ASCII letter; other bytes stay. -/
def toLower (c : UInt8) : UInt8 := if isUpper c then c + 0x20 else c

/-- The value of an alphanumeric digit: `0` to `9`, then the letters of either case from 10 on. -/
def digit? (c : UInt8) : Option Nat :=
  if isDigit c then some (c.toNat - 0x30)
  else if isLower c then some (c.toNat - 0x57)
  else if isUpper c then some (c.toNat - 0x37)
  else none

/-- A hexadecimal digit of either case. -/
def isHex (c : UInt8) : Bool := isDigit c || (0x41 ≤ c && c ≤ 0x46) || (0x61 ≤ c && c ≤ 0x66)

/-- A hexadecimal digit whose letters are in upper case. -/
def isUpperHex (c : UInt8) : Bool := isDigit c || (0x41 ≤ c && c ≤ 0x46)

end Byte

end CheatScript
