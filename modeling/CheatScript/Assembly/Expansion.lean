import CheatScript.Argument
import CheatScript.Definition
import CheatScript.Instruction.Kind
import CheatScript.Text.Upper

/-!
# Expansion of assembler lines

The first pass over an asm scope. It notes which instruction each label stands before and replaces
short forms and pseudo-instructions by instructions of the table, one to two for each line.
-/

namespace CheatScript.Assembly

/-- The operand inside a token, without its commas and the blanks around it. -/
def bare (token : Bytes) : Bytes := Space.trim (token.dropWhile (· == Byte.comma))

/-- Hexadecimal digits after a comma and `0x`. -/
def hexOperand (n : Nat) : Bytes := ascii ",0x" ++ Hex.natural n

/-- The token with a comma in front. -/
def commaBefore (token : Bytes) : Bytes := Byte.comma :: token

/-! ## Short forms -/

/-- `rd,rt` for `rd,rd,rt`. -/
def repeatFirst (c : Command) : Except Failure (List Command) := match c.args with
  | [a, b] => .ok [c.withParts c.name [a, commaBefore a, b]]
  | _ => c.refuse .asmWrongSyntax

/-- `rd,rs` for `rd,$zero,rs`. -/
def insertZero (c : Command) : Except Failure (List Command) := match c.args with
  | [a, b] => .ok [c.withParts c.name [a, ascii ",$zero", b]]
  | _ => c.refuse .asmWrongSyntax

/-- A jump whose target is an address with plus terms. -/
def jump (c : Command) : Except Failure (List Command) := match Argument.address c.args with
  | .error kind => c.refuse kind
  | .ok (target, []) => .ok [c.withParts c.name [Hex.fixed 7 target.toNat]]
  | .ok (_, _ :: _) => c.refuse .asmWrongSyntax

/-! ## Comparing branches -/

/-- A branch on the order of two registers. -/
structure ComparingBranch where
  /-- The mnemonic. -/
  name : Bytes
  /-- Whether the registers change places in the comparison. -/
  swaps : Bool
  /-- The branch on the outcome of the comparison. -/
  branch : Bytes

/-- The branches that compare two registers by their order. -/
def comparingBranches : List ComparingBranch :=
  [⟨ascii "BLT", false, ascii "BNE"⟩, ⟨ascii "BGE", false, ascii "BEQ"⟩,
   ⟨ascii "BLE", true, ascii "BEQ"⟩, ⟨ascii "BGT", true, ascii "BNE"⟩]

/-- Compares into `$at` and branches on the outcome. -/
def compareAndBranch (b : ComparingBranch) (c : Command) : Except Failure (List Command) :=
  match c.args with
  | [r1, r2, label] =>
    let r2 := r2.dropWhile (· == Byte.comma)
    let (left, right) := if b.swaps then (r2, r1) else (r1, r2)
    .ok [c.withParts (ascii "SLT") [ascii "$at", commaBefore left, commaBefore right],
      c.withParts b.branch [ascii "$at", ascii ",$zero", label]]
  | _ => c.refuse .asmWrongSyntax

/-! ## Loads and stores -/

/-- An offset in hexadecimal: without `0x` its digits are taken as hexadecimal ones. -/
def hexOffset (token : Bytes) : Bytes :=
  let off := Space.trimEnd token.tail
  if Bytes.startsWith (ascii "0x") off || Bytes.startsWith (ascii "-0x") off then token
  else match Bytes.after? [Byte.minus] off with
    | some digits => ascii ",-0x" ++ digits
    | none => ascii ",0x" ++ off

/-- `target,offset(base)` as three operands. Names in the offset and the base are resolved first. -/
def basedAccess (t : DefinitionTable) (c : Command) (target offset base : Bytes) :
    Except Failure (List Command) := do
  let offset := Space.trimEnd offset
  let offset := if offset = [Byte.comma] then ascii ",0x0" else offset
  let access ← t.substitute (c.withParts c.name [target, offset, commaBefore base])
  match access.args with
  | first :: second :: rest =>
    if second.isEmpty then c.refuse .asmWrongSyntax
    else .ok [{ access with args := first :: hexOffset second :: rest }]
  | _ => c.refuse .asmWrongSyntax

/-- `target,address`. An address below `0x8000` is an offset from `$zero`. Otherwise the upper half
is loaded first; as the offset is signed, a lower half of `0x8000` or more takes the next upper half
and reaches back. -/
def absoluteAccess (c : Command) (target address : Bytes) : Except Failure (List Command) :=
  match Argument.addressValue (bare address) with
  | .error _ => c.refuse .asmImmediateValueInvalid
  | .ok a =>
    if a.toInt < 0x8000 then
      .ok [c.withParts c.name [target, hexOperand a.toNat, ascii ",$zero"]]
    else
      let upper := (a.extractLsb' 16 16).toNat
      let lower := (a.extractLsb' 0 16).toNat
      let (upper, offset) :=
        if lower < 0x8000 then (upper, hexOperand lower)
        else (upper + 1, ascii ",-0x" ++ Hex.natural (0x10000 - lower))
      let base := if c.name ∈ Instruction.viaAt then ascii "$at" else target
      .ok [c.withParts (ascii "LUI") [base, hexOperand upper],
        c.withParts c.name [target, offset, commaBefore base]]

/-- A load or store. The base may stand apart from its offset. -/
def access (t : DefinitionTable) (c : Command) : Except Failure (List Command) :=
  let split (target place : Bytes) : Except Failure (List Command) :=
    match Bytes.cut? Byte.opening place with
    | some (offset, rest) =>
      if place.contains Byte.closing then
        if rest.isEmpty then c.refuse .asmWrongSyntax
        else basedAccess t c target offset rest.dropLast
      else absoluteAccess c target place
    | none => absoluteAccess c target place
  match c.args with
  | [target, place] => split target place
  | [target, offset, base] => split target (offset ++ base)
  | _ => c.refuse .asmWrongSyntax

/-! ## Load immediate -/

/-- Loads a number: zero-extended 16 bits in one step, small negative numbers in one step, others by
their upper half and, if it is not zero, their lower half. -/
def loadImmediate (c : Command) : Except Failure (List Command) := match c.args with
  | [target, value] => match Argument.integerValue (bare value) with
    | .error _ => c.refuse .asmImmediateValueInvalid
    | .ok v =>
      if -0x8000 ≤ v.toInt && v.toInt < 0x10000 then
        let name := if v.toInt < 0 then ascii "ADDIU" else ascii "ORI"
        .ok [c.withParts name [target, ascii ",$zero", hexOperand v.toNat]]
      else
        let lower := (v.extractLsb' 0 16).toNat
        let high := c.withParts (ascii "LUI") [target, hexOperand (v.extractLsb' 16 16).toNat]
        if lower = 0 then .ok [high]
        else .ok [high, c.withParts (ascii "ORI") [target, commaBefore target, hexOperand lower]]
  | _ => c.refuse .asmWrongSyntax

/-! ## Lines -/

/-- The instructions of the table that one line stands for. -/
def instructionsOf (t : DefinitionTable) (c : Command) : Except Failure (List Command) :=
  if c.args.length ≠ 3 && c.name ∈ Instruction.twoOperandForms then repeatFirst c
  else if c.args.length ≠ 3 && c.name ∈ Instruction.shiftForms then insertZero c
  else if !c.args.isEmpty && (c.name = ascii "J" || c.name = ascii "JAL") then jump c
  else if c.name = ascii "JALR" then match c.args with
    | [r] => .ok [c.withParts c.name [ascii "$ra", commaBefore r]]
    | _ => .ok [c]
  else match comparingBranches.find? (·.name == c.name) with
    | some b => compareAndBranch b c
    | none =>
      if c.name ∈ Instruction.loadStores then access t c
      else if c.name = ascii "LI" then loadImmediate c
      else .ok [c]

/-- An asm scope after the first pass. -/
structure Expanded where
  /-- Each label in upper case, with the index of the instruction after it. -/
  labels : List (Bytes × Nat) := []
  /-- The instructions in order. -/
  code : List Command := []

/-- Whether a name is that of a label line. -/
def isLabel (name : Bytes) : Bool := Bytes.endsWith [Byte.colon] name

namespace Expanded

/-- Notes a label. -/
def define (x : Expanded) (c : Command) : Except Failure Expanded :=
  let label := Bytes.dropTail [Byte.colon] c.name
  if label.isEmpty || Bytes.occurs (ascii "::") c.name then c.refuse .asmWrongSyntax
  else
    let key := Bytes.upper label
    if (x.labels.lookup key).isSome then c.refuse .asmLabelAlreadyDefined
    else .ok { x with labels := (key, x.code.length) :: x.labels }

/-- Adds the instructions of a line. -/
def emit (t : DefinitionTable) (x : Expanded) (c : Command) : Except Failure Expanded := do
  let new ← instructionsOf t c
  return { x with code := x.code ++ new }

/-- Adds a line with the given name and arguments. What follows a label on its line is a line of its
own. -/
def addLine (t : DefinitionTable) (c : Command) :
    Expanded → (name : Bytes) → (args : List Bytes) → Except Failure Expanded
  | x, name, [] =>
    if isLabel name then x.define (c.withParts name []) else x.emit t (c.withParts name [])
  | x, name, a :: args =>
    if isLabel name then do
      let x ← x.define (c.withParts name (a :: args))
      addLine t c x (Bytes.upper a) args
    else x.emit t (c.withParts name (a :: args))

/-- Expands the lines of a scope in order. -/
def ofCommands (t : DefinitionTable) (cmds : List Command) : Except Failure Expanded :=
  cmds.foldlM (fun x c => addLine t c x c.name c.args) {}

end Expanded

end CheatScript.Assembly
