import CheatScript.Text.Bytes

/-!
# Identifiers

An identifier is a run of letters, digits and underscores. Where letters count in either case, two
characters beyond ASCII are letters as well: the long s (U+017F), a form of `s`, and the Kelvin sign
(U+212A), a form of `k`.
-/

namespace CheatScript.Identifier

/-- The text after one character of an identifier. -/
def afterChar? : Bytes → Option Bytes
  | [] => none
  | c :: s =>
    if Byte.isWord c then some s
    else (Bytes.after? [0xC5, 0xBF] (c :: s)).or (Bytes.after? [0xE2, 0x84, 0xAA] (c :: s))

/-- The number of bytes of the identifier at the start of a text, the first `skip` of which are
known to belong to it. -/
def lengthFrom : (skip : Nat) → Bytes → Nat
  | _, [] => 0
  | skip + 1, _ :: s => lengthFrom skip s + 1
  | 0, c :: s => match afterChar? (c :: s) with
    | some rest => lengthFrom (s.length - rest.length) s + 1
    | none => 0

/-- The identifier at the start of a text, all of it, and the text after it. -/
def cut? (s : Bytes) : Option (Bytes × Bytes) := match lengthFrom 0 s with
  | 0 => none
  | n => some (s.take n, s.drop n)

end CheatScript.Identifier
