import CheatScript.Text.Numeral

/-!
# Little-endian words

A 32-bit word lies in memory as four bytes, the lowest first.
-/

namespace CheatScript.LittleEndian

/-- The word of four bytes, lowest first. -/
def word (a b c d : UInt8) : Word := d.toBitVec ++ c.toBitVec ++ b.toBitVec ++ a.toBitVec

/-- The four bytes of a word, lowest first. -/
def bytes (w : Word) : Bytes :=
  [w.extractLsb' 0 8, w.extractLsb' 8 8, w.extractLsb' 16 8, w.extractLsb' 24 8].map UInt8.ofBitVec

/-- The bytes of words one after the other. -/
def image (words : List Word) : Bytes := words.flatMap bytes

end CheatScript.LittleEndian
