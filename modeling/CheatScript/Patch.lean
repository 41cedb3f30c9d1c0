import CheatScript.Text.Space

/-!
# Patch lines

The codes of an emulator's patch file: `patch=1,EE,AAAAAAAA,extended,VVVVVVVV` for each pair of
halves.
-/

namespace CheatScript.Patch

/-- The two halves of a code line at the start of a text: eight digits in upper case, one blank,
eight digits. -/
def pairAt? (s : Bytes) : Option (Bytes × Bytes) :=
  let left := s.take 8
  let right := (s.drop 9).take 8
  if left.length = 8 && left.all Byte.isUpperHex && s[8]? = some Byte.space && right.length = 8
      && right.all Byte.isUpperHex then some (left, right) else none

/-- The patch line of two halves. -/
def line (left right : Bytes) : Bytes :=
  ascii "patch=1,EE," ++ left ++ ascii ",extended," ++ right

/-- Turns every code line in a text into a patch line. Anything else is left alone. -/
def ofCodes (s : Bytes) : Bytes :=
  Bytes.edit (fun s => (pairAt? s).map fun (left, right) => (17, line left right)) s

/-- The text after a word in any case and the blanks around it. -/
def afterWord? (word s : Bytes) : Option Bytes :=
  (Bytes.afterFolded? word (s.dropWhile Byte.isGap)).map (·.dropWhile Byte.isGap)

/-- Eight hexadecimal digits in either case at the start of a text, and the text after them. -/
def half? (s : Bytes) : Option (Bytes × Bytes) :=
  let digits := s.take 8
  if digits.length = 8 && digits.all Byte.isHex then some (digits.map Byte.toUpper, s.drop 8)
  else none

/-- The text after a number. -/
def afterNumber? (s : Bytes) : Option Bytes :=
  if s.head?.any Byte.isDigit then some (s.dropWhile Byte.isDigit) else none

/-- The halves of a patch line, in upper case. -/
def pair? (text : Bytes) : Option (Bytes × Bytes) := do
  let s ← Bytes.afterFolded? (ascii "patch") (Space.trim text)
  let s ← afterWord? (ascii "=") s
  let s ← afterNumber? s
  let s ← afterWord? (ascii ",") s
  let s ← afterWord? (ascii "ee") s
  let s ← afterWord? (ascii ",") s
  let (left, s) ← half? s
  let s ← afterWord? (ascii ",") s
  let s ← afterWord? (ascii "extended") s
  let s ← afterWord? (ascii ",") s
  let (right, s) ← half? s
  if (s.dropWhile Byte.isGap).isEmpty then some (left, right) else none

/-- Turns every patch line of a text into a code line. Other lines are left alone. -/
def toCodes (s : Bytes) : Bytes :=
  Bytes.join [Byte.newline] ((Bytes.split Byte.newline s).map fun l =>
    match pair? (Bytes.dropTail [Byte.carriage] l) with
    | some (left, right) => left ++ Byte.space :: right
    | none => l)

end CheatScript.Patch
