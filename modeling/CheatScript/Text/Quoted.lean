import CheatScript.Text.Numeral
import CheatScript.Text.Printable
import CheatScript.Text.Utf8

/-!
# Quoted texts

A text between quotes in which every character can be told: quotes and backslashes are escaped, and
so is what cannot be printed, bytes outside UTF-8 included.
-/

namespace CheatScript.Quoted

/-- The escapes that have a letter. -/
def letterEscape? (c : Char) : Option UInt8 :=
  [(0x07, 0x61), (0x08, 0x62), (0x0C, 0x66), (0x0A, 0x6E), (0x0D, 0x72), (0x09, 0x74),
   (0x0B, 0x76)].lookup c.toNat

/-- The lower-case hexadecimal digits of a number. -/
def digits (width n : Nat) : Bytes := (Hex.fixed width n).map Byte.toLower

/-- A character inside quotes. -/
def quoteChar (c : Char) : Bytes :=
  if c = '"' || c = '\\' then Byte.backslash :: Utf8.encode [c]
  else if Printable.isPrintable c then Utf8.encode [c]
  else match letterEscape? c with
    | some letter => [Byte.backslash, letter]
    | none =>
      if c.toNat < 0x80 then ascii "\\x" ++ digits 2 c.toNat
      else if c.toNat < 0x10000 then ascii "\\u" ++ digits 4 c.toNat
      else ascii "\\U" ++ digits 8 c.toNat

/-- A unit of a text inside quotes. -/
def quoteRune : Rune → Bytes
  | .scalar c => quoteChar c
  | .stray b => ascii "\\x" ++ digits 2 b.toNat

/-- A text between quotes. -/
def quote (s : Bytes) : Bytes :=
  Byte.quote :: ((Utf8.units s).flatMap quoteRune ++ [Byte.quote])

end CheatScript.Quoted
