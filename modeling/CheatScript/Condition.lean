import CheatScript.Argument
import CheatScript.Code

/-!
# Conditions

A condition compares the value at an address with a number. The line of a condition tells the device
how many of the lines after it to skip when it does not hold. There are two ways to write such a
line.
-/

namespace CheatScript

/-- How a condition compares. -/
inductive Comparison
  /-- The values are equal. -/
  | equal
  /-- The values differ. -/
  | notEqual
  /-- The value in memory is less. -/
  | less
  /-- The value in memory is greater. -/
  | greater
  /-- No bit is set in both. -/
  | nand
  /-- Some bit is set in both. -/
  | and
  /-- Some bit is set in neither. -/
  | nor
  /-- Some bit is set in either. -/
  | or
  deriving DecidableEq, Repr

namespace Comparison

/-- The comparisons in the order of their numbers, each with its operator. -/
def operators : List (Bytes × Comparison) :=
  [(ascii "=", .equal), (ascii "!", .notEqual), (ascii "<", .less), (ascii ">", .greater),
   (ascii "~&", .nand), (ascii "&", .and), (ascii "~|", .nor), (ascii "|", .or)]

/-- The comparison of an operator. -/
def ofOperator? (operator : Bytes) : Option Comparison := operators.lookup operator

/-- The number of a comparison in a code. -/
def code : Comparison → Nat
  | .equal => 0
  | .notEqual => 1
  | .less => 2
  | .greater => 3
  | .nand => 4
  | .and => 5
  | .nor => 6
  | .or => 7

end Comparison

/-- A condition on the memory. -/
structure Condition where
  /-- The address of the value. -/
  address : Word
  /-- How it is compared. -/
  comparison : Comparison
  /-- How many bits are compared. -/
  width : Narrow
  /-- The number it is compared with. -/
  value : Word
  deriving DecidableEq, Repr

/-- The two ways to write a condition. -/
inductive ConditionType
  /-- `Daaaaaaa nnctvvvv`. -/
  | d
  /-- `Etnnvvvv caaaaaaa`. -/
  | e
  deriving DecidableEq, Repr

namespace Condition

/-- The width a mark asks for: `.` for a byte, `:` for a halfword. -/
def widthOfMark? (c : UInt8) : Option Narrow :=
  if c = Byte.dot then some .byte else if c = Byte.colon then some .half else none

/-- Reads a condition: an address, an operator with the mark of its width, and a number. Tokens
after the number are left alone. -/
def read (args : List Bytes) : Except Fault Condition := do
  let (address, rest) ← Argument.address args
  match rest with
  | [] => .error .wrongSyntax
  | operator :: rest => match Comparison.ofOperator? operator.dropLast with
    | none => .error .wrongSyntax
    | some comparison => do
      let (value, _) ← Argument.integer rest
      match operator.getLast?.bind widthOfMark? with
      | none => .error .wrongSyntax
      | some width => return ⟨address, comparison, width, value⟩

/-- The digit that tells the width. -/
def widthDigit : Narrow → UInt8
  | .byte => Hex.digit 1
  | .half => Hex.digit 0

/-- The four digits of the number compared with. -/
def valueDigits (c : Condition) : Bytes := Hex.fixed 4 (c.width.width.clip c.value).toNat

/-- The line of a condition that skips `skip` lines when it does not hold. -/
def line (type : ConditionType) (skip : Nat) (c : Condition) : CodeLine :=
  let address := Hex.fixed 7 c.address.toNat
  let comparison := Hex.digit c.comparison.code
  match type with
  | .d => ⟨Hex.digit 0xD :: address,
      Hex.padded 2 skip ++ comparison :: widthDigit c.width :: c.valueDigits⟩
  | .e => ⟨Hex.digit 0xE :: widthDigit c.width :: Hex.padded 2 skip ++ c.valueDigits,
      comparison :: address⟩

end Condition

end CheatScript
