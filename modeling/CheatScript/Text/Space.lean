import CheatScript.Text.Bytes

/-!
# White space

The white space that is trimmed from lines and operands: the ASCII blanks and the UTF-8 forms of
U+0085, U+00A0, U+1680, U+2000 to U+200A, U+2028, U+2029, U+202F, U+205F and U+3000. A byte that is
not part of one of these forms is kept, so texts that are not valid UTF-8 are trimmed like any
other.
-/

namespace CheatScript.Space

/-- The white space written with two bytes: U+0085 and U+00A0. -/
def isPair (a b : UInt8) : Bool := a == 0xC2 && (b == 0x85 || b == 0xA0)

/-- The white space written with three bytes. -/
def isTriple (a b c : UInt8) : Bool :=
  (a == 0xE1 && b == 0x9A && c == 0x80)
  || (a == 0xE2 && b == 0x80 && ((0x80 ≤ c && c ≤ 0x8A) || c == 0xA8 || c == 0xA9 || c == 0xAF))
  || (a == 0xE2 && b == 0x81 && c == 0x9F)
  || (a == 0xE3 && b == 0x80 && c == 0x80)

/-- Drops the white space in front, where `pair` and `triple` tell the forms of several bytes in the
order in which they are met. -/
def dropForms (pair : UInt8 → UInt8 → Bool) (triple : UInt8 → UInt8 → UInt8 → Bool) :
    Bytes → Bytes
  | a :: b :: c :: s =>
    if Byte.isBlank a then dropForms pair triple (b :: c :: s)
    else if pair a b then dropForms pair triple (c :: s)
    else if triple a b c then dropForms pair triple s
    else a :: b :: c :: s
  | [a, b] =>
    if Byte.isBlank a then dropForms pair triple [b] else if pair a b then [] else [a, b]
  | [a] => if Byte.isBlank a then [] else [a]
  | [] => []

/-- The text without the white space in front. -/
def trimStart (s : Bytes) : Bytes := dropForms isPair isTriple s

/-- The text without the white space at its end. -/
def trimEnd (s : Bytes) : Bytes :=
  (dropForms (fun a b => isPair b a) (fun a b c => isTriple c b a) s.reverse).reverse

/-- The text without white space at either end. -/
def trim (s : Bytes) : Bytes := trimEnd (trimStart s)

end CheatScript.Space
