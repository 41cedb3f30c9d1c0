import CheatScript.LittleEndian

/-!
# Codes

The codes that a cheat device runs, and the lines they are written as. A line is a pair of halves of
eight hexadecimal digits; the first digit of a code tells its type. Addresses have seven digits.
-/

namespace CheatScript

/-- The number of bytes a code reads or writes. -/
inductive Width
  /-- 8 bits. -/
  | byte
  /-- 16 bits. -/
  | half
  /-- 32 bits. -/
  | word
  deriving DecidableEq, Repr

namespace Width

/-- The number of a width in a code. -/
def code : Width → Nat
  | .byte => 0
  | .half => 1
  | .word => 2

/-- The low bits of a value that fit a width. -/
def clip (w : Width) (v : Word) : Word := match w with
  | .byte => v &&& 0xFF#32
  | .half => v &&& 0xFFFF#32
  | .word => v

end Width

/-- A width of at most 16 bits. -/
inductive Narrow
  /-- 8 bits. -/
  | byte
  /-- 16 bits. -/
  | half
  deriving DecidableEq, Repr

/-- A narrow width among all widths. -/
def Narrow.width : Narrow → Width
  | .byte => .byte
  | .half => .half

/-- The direction of a step. -/
inductive Direction
  /-- Up. -/
  | increment
  /-- Down. -/
  | decrement
  deriving DecidableEq, Repr

/-- A bitwise operation. -/
inductive Bitwise
  /-- Inclusive or. -/
  | or
  /-- And. -/
  | and
  /-- Exclusive or. -/
  | xor
  deriving DecidableEq, Repr

/-- A line of codes. -/
structure CodeLine where
  /-- The half before the blank. -/
  left : Bytes
  /-- The half after the blank. -/
  right : Bytes
  deriving DecidableEq, Repr

/-- The text of a line. -/
def CodeLine.text (l : CodeLine) : Bytes := l.left ++ Byte.space :: l.right

/-- A code. -/
inductive Code
  /-- Writes a value at an address. -/
  | write (width : Width) (address value : Word)
  /-- Writes a value at the end of a chain of pointers: `base`, then `first`, then the offsets of
  `rest`. -/
  | pointer (width : Width) (base value first : Word) (rest : List Word)
  /-- Copies bytes. -/
  | copy (source target length : Word)
  /-- Writes a value a number of times from an address on. -/
  | fill (width : Width) (address value : Word) (count : Nat)
  /-- Adds a value to, or subtracts it from, the one at an address. -/
  | step (direction : Direction) (width : Width) (address value : Word)
  /-- Combines the value at an address with another one. -/
  | bitwise (operation : Bitwise) (width : Narrow) (address value : Word)
  /-- A word stored at an address that has the type of its code in front. -/
  | store (place word : Word)
  deriving DecidableEq, Repr

namespace Code

/-- A half of a type digit and seven digits of an address. -/
def typed (type : Nat) (address : Word) : Bytes := Hex.digit type :: Hex.fixed 7 address.toNat

/-- A half of zeros. -/
def zeros : Bytes := Hex.word 0

/-- Offsets two in a line; a line that lacks its second one is filled up with zeros. -/
def offsetLines : List Word → List CodeLine
  | [] => []
  | [a] => [⟨Hex.word a, zeros⟩]
  | a :: b :: rest => ⟨Hex.word a, Hex.word b⟩ :: offsetLines rest

/-- The kind of a step, three bits. -/
def stepKind : Direction → Width → Nat
  | .increment, .byte => 0
  | .decrement, .byte => 1
  | .increment, .half => 2
  | .decrement, .half => 3
  | .increment, .word => 4
  | .decrement, .word => 5

/-- The kind of a bitwise operation. -/
def bitwiseKind : Bitwise → Narrow → Nat
  | .or, .byte => 0
  | .or, .half => 1
  | .and, .byte => 2
  | .and, .half => 3
  | .xor, .byte => 4
  | .xor, .half => 5

/-- The lines of a fill. -/
def fillLines (width : Width) (address value : Word) (count : Nat) : List CodeLine :=
  let size := Hex.padded 4 count ++ ascii "0001"
  match width with
  | .byte => [⟨typed 8 address, size⟩, ⟨Hex.word (Width.byte.clip value), zeros⟩]
  | .half => [⟨typed 8 address, size⟩, ⟨Hex.word (0x10000000#32 ||| Width.half.clip value), zeros⟩]
  | .word => [⟨typed 4 address, size⟩, ⟨Hex.word value, zeros⟩]

/-- The lines of a step. A 32-bit value has a line of its own. -/
def stepLines (direction : Direction) (width : Width) (address value : Word) : List CodeLine :=
  let kind := 0x30000000#32 ||| BitVec.ofNat 32 (stepKind direction width * 0x100000)
  match width with
  | .word => [⟨Hex.word kind, typed 0 address⟩, ⟨Hex.word value, zeros⟩]
  | _ => [⟨Hex.word (kind ||| width.clip value), typed 0 address⟩]

/-- The lines a code is written as. -/
def lines : Code → List CodeLine
  | .write width address value => [⟨typed width.code address, Hex.word (width.clip value)⟩]
  | .pointer width base value first rest =>
    ⟨typed 6 base, Hex.word (width.clip value)⟩
      :: ⟨ascii "000" ++ Hex.digit width.code :: Hex.padded 4 (rest.length + 1), Hex.word first⟩
      :: offsetLines rest
  | .copy source target length => [⟨typed 5 source, Hex.word length⟩, ⟨typed 0 target, zeros⟩]
  | .fill width address value count => fillLines width address value count
  | .step direction width address value => stepLines direction width address value
  | .bitwise operation width address value =>
    let kind := BitVec.ofNat 32 (bitwiseKind operation width * 0x100000)
    [⟨typed 7 address, Hex.word (kind ||| width.width.clip value)⟩]
  | .store place word => [⟨Hex.word place, Hex.word word⟩]

/-- The writes that put bytes in memory from an address on: 32 bits at a time, then 16 and 8 bits
for the one to three bytes left over. -/
def ofBytes (start : Word) : Bytes → List Code
  | [] => []
  | [a] => [.write .byte start (LittleEndian.word a 0 0 0)]
  | [a, b] => [.write .half start (LittleEndian.word a b 0 0)]
  | [a, b, c] =>
    [.write .half start (LittleEndian.word a b 0 0),
     .write .byte (start + 2) (LittleEndian.word c 0 0 0)]
  | a :: b :: c :: d :: rest =>
    .write .word start (LittleEndian.word a b c d) :: ofBytes (start + 4) rest

/-- The words of a program stored one after the other. -/
def ofWords (place : Word) : List Word → List Code
  | [] => []
  | w :: ws => .store place w :: ofWords (place + 4) ws

end Code

end CheatScript
