import CheatScript.Disassembly
import CheatScript.Patch

/-!
# Code files

Files of code lines, raw or as patch lines. Other lines may stand between them.
-/

namespace CheatScript.CodeFile

/-- Whether a text is a code line: two halves of eight hexadecimal digits with one blank between. -/
def isCodeLine (s : Bytes) : Bool :=
  s.length == 17 && (s.take 8).all Byte.isHex && s[8]? == some Byte.space &&
    (s.drop 9).all Byte.isHex

/-- The halves of a code line or a patch line. -/
def halves? (line : Bytes) : Option (Bytes × Bytes) :=
  (Patch.pair? line).or (if isCodeLine line then some (line.take 8, line.drop 9) else none)

/-- The two words of a code line or a patch line. -/
def words? (line : Bytes) : Option (Word × Word) := do
  let (left, right) ← halves? line
  let left ← (Numeral.hexWord left).toOption
  let right ← (Numeral.hexWord right).toOption
  return (left, right)

/-- An instruction in a code file. -/
structure Row where
  /-- Its address. -/
  address : Word
  /-- Its word. -/
  word : Word
  /-- Its text. -/
  text : Bytes
  deriving DecidableEq, Repr

/-- The instruction that a line writes, if it is a 32-bit write. -/
def row? (line : Bytes) : Option Row := do
  let (place, word) ← words? line
  if place >>> 28 = 2 then
    let address := place &&& 0x0FFFFFFF#32
    return ⟨address, word, Disassembly.text (decode word address)⟩
  else none

/-- The lines of a code file that are not blank, without the blanks around them. -/
def lines (source : Bytes) : List Bytes :=
  ((Bytes.split Byte.newline source).map Space.trim).filter (!·.isEmpty)

/-- The instructions of a code file. -/
def rows (source : Bytes) : List Row := (lines source).filterMap row?

/-- The number of lines of a code file that write no instruction. -/
def skipped (source : Bytes) : Nat := ((lines source).filter fun l => (row? l).isNone).length

/-- The number of lines of compiled codes. -/
def lineCount (codes : Bytes) : Nat :=
  if codes.isEmpty then 0 else List.count Byte.newline codes + 1

end CheatScript.CodeFile
