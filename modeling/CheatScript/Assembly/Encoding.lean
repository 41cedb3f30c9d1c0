import CheatScript.Assembly.Expansion
import CheatScript.Instruction.Layout
import CheatScript.Instruction.Register

/-!
# Encoding of instructions

The second pass over an asm scope: reads the operands of each instruction into the fields of its
word. A branch label becomes the distance in words from the instruction after the branch.
-/

namespace CheatScript.Assembly

/-- Labels in upper case, each with the index of the instruction after it. -/
abbrev Labels := List (Bytes × Nat)

/-- The value of an integer operand. -/
def integerOperand (fault : Fault) (s : Bytes) : Except Fault Word :=
  Argument.literal Literal.isInteger Literal.integer fault s

/-- The value of an operand of five bits. -/
def smallOperand (fault : Fault) (s : Bytes) : Except Fault (BitVec 5) := do
  let v ← integerOperand fault s
  if 0 ≤ v.toInt && v.toInt ≤ 0x1F then return v.setWidth 5 else .error fault

/-- Where a label operand of the instruction at `index` leads: the target in words of a jump, the
distance in words of a branch. -/
def labelOperand (family : Family) (labels : Labels) (index : Nat) (s : Bytes) :
    Except Fault Word :=
  if family = .jump then match Numeral.hexWord s with
    | .ok target => .ok (target >>> 2)
    | .error _ => .error .asmImmediateValueInvalid
  else match labels.lookup (Bytes.upper s) with
    | some target => .ok (BitVec.ofInt 32 (target - (index + 1)))
    | none => .error .asmUndefinedLabel

/-- Reads one operand into the fields it fills. -/
def readOperand (family : Family) (labels : Labels) (index : Nat) (f : Fields) (o : Operand)
    (s : Bytes) : Except Fault Fields := match o with
  | .imm5 => do return { f with rd := ← smallOperand .asmImmediateValueInvalid s }
  | .shift => do return { f with sa := ← smallOperand .asmShiftAmountValueInvalid s }
  | .imm => do return { f with imm := ← integerOperand .asmImmediateValueInvalid s }
  | .label => do return { f with imm := ← labelOperand family labels index s }
  | o => match o.register? with
    | none => .error .asmUnknownRegister
    | some (file, slot) => match file.find? s with
      | some r => .ok (f.setSlot slot r)
      | none => .error .asmUnknownRegister

/-- Reads an operand with a comma in front into the fields it fills. -/
def readMarked (family : Family) (labels : Labels) (index : Nat) (f : Fields)
    (operand : Operand × Bytes) : Except Fault Fields :=
  if Argument.hasMark Byte.comma operand.2 then
    readOperand family labels index f operand.1 (bare operand.2)
  else .error .asmWrongSyntax

/-- Reads the operands in order. Every operand but the first has a comma in front. -/
def readOperands (family : Family) (labels : Labels) (index : Nat) :
    List (Operand × Bytes) → Except Fault Fields
  | [] => .ok {}
  | (o, s) :: rest => do
    let first ← readOperand family labels index {} o (bare s)
    rest.foldlM (readMarked family labels index) first

/-! ## Suffixes -/

/-- The bit of a destination letter. -/
def destBit? (c : UInt8) : Option (BitVec 4) :=
  if c = 0x58 then some 8#4 else if c = 0x59 then some 4#4
  else if c = 0x5A then some 2#4 else if c = 0x57 then some 1#4 else none

/-- Adds a destination letter to a mask. It may not be there yet, nor exceed the mask so far. -/
def addDest (dest : BitVec 4) (c : UInt8) : Except Fault (BitVec 4) := match destBit? c with
  | none => .error .asmWrongDest
  | some bit =>
    if dest ≠ 0 && (dest &&& bit ≠ 0 || dest < bit) then .error .asmWrongDest
    else .ok (dest ||| bit)

/-- The mask of one to four destination letters. -/
def destMask (letters : Bytes) : Except Fault (BitVec 4) :=
  if letters.isEmpty || 4 < letters.length then .error .asmWrongDest else letters.foldlM addDest 0

/-- Reads what follows the full stop of a mnemonic into the fields, where the family has a place for
it. -/
def readSuffix (family : Family) (mnemonic : Bytes) (f : Fields) : Except Fault Fields :=
  match Instruction.cutSuffix? mnemonic with
  | none => .ok f
  | some (_, letters) =>
    if family = .cop2 then
      if letters = ascii "I" then .ok { f with interlock := 1 } else .error .asmWrongInterlock
    else if family.hasDest then do return { f with dest := ← destMask letters }
    else .ok f

/-! ## Words -/

/-- The fields of the instruction at `index` of its scope, with its row of the table. -/
def readInstruction (labels : Labels) (index : Nat) (c : Command) :
    Except Fault (Instruction × Fields) :=
  match Instruction.find? c.name with
  | none => .error .asmUnknownMnemonic
  | some e => do
    if c.args.length ≠ e.operands.length then .error .asmWrongSyntax
    else
      let f ← readOperands e.family labels index (e.operands.zip c.args)
      let f ← readSuffix e.family c.name f
      return (e, f)

/-- The word of the instruction at `index` of its scope. -/
def encode (labels : Labels) (index : Nat) (c : Command) : Except Failure Word :=
  match readInstruction labels index c with
  | .ok (e, f) => .ok (e.pack f)
  | .error kind => c.refuse kind

end CheatScript.Assembly
