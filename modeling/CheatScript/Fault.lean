import CheatScript.Command
import CheatScript.Text.Numeral

/-!
# Faults

What can be wrong with a script, the names and explanations of the faults, and the report that takes
the place of the compiled codes. Faults are numbered in the order of their declaration; a number
past the list is kept and shown as it is.
-/

namespace CheatScript

/-- A kind of fault. -/
inductive Fault
  /-- Nothing is wrong. -/
  | noError
  /-- The name is no command of the language. -/
  | unknownCommand
  /-- The arguments do not follow the syntax of the command. -/
  | wrongSyntax
  /-- An address is malformed. -/
  | addressInvalid
  /-- A value is malformed or out of range. -/
  | valueInvalid
  /-- An If scope is not closed. -/
  | missEndIf
  /-- An asm scope is closed that was not opened. -/
  | missAsmStart
  /-- An asm scope is not closed. -/
  | missAsmEnd
  /-- A function is closed that was not opened. -/
  | missFunction
  /-- A function is not closed. -/
  | missEndFunction
  /-- A function is defined inside another one. -/
  | functionInsideFunction
  /-- Two functions have one name. -/
  | functionAlreadyDefined
  /-- A file is included inside a function. -/
  | includeInsideFunction
  /-- A file includes itself, directly or through others. -/
  | includeStackOverflow
  /-- A function calls itself, directly or through others. -/
  | callStackOverflow
  /-- A call passes more or fewer arguments than the function has parameters. -/
  | argumentCountMismatch
  /-- An argument lacks its quotes. -/
  | missingQuotes
  /-- A length is not a multiple of two. -/
  | lengthNotDivisibleBy2
  /-- A length is not a multiple of four. -/
  | lengthNotDivisibleBy4
  /-- A variable refers back to itself. -/
  | setStackOverflow
  /-- An If scope cannot be split into parts of 255 lines. -/
  | ifScopeTooLarge
  /-- The mnemonic is not in the instruction table. -/
  | asmUnknownMnemonic
  /-- The operands do not fit the instruction. -/
  | asmWrongSyntax
  /-- A branch names a label that is not defined. -/
  | asmUndefinedLabel
  /-- A label is defined twice. -/
  | asmLabelAlreadyDefined
  /-- A register name is not known. -/
  | asmUnknownRegister
  /-- The destination letters of a vector instruction are wrong. -/
  | asmWrongDest
  /-- The interlock suffix is wrong. -/
  | asmWrongInterlock
  /-- An immediate operand is malformed. -/
  | asmImmediateValueInvalid
  /-- A shift amount is malformed or out of range. -/
  | asmShiftAmountValueInvalid
  /-- A number that no kind of fault has. -/
  | unlisted (code : Int)
  deriving DecidableEq, Repr

namespace Fault

/-- The kinds of fault in the order of their numbers. -/
def all : List Fault :=
  [.noError, .unknownCommand, .wrongSyntax, .addressInvalid, .valueInvalid, .missEndIf,
   .missAsmStart, .missAsmEnd, .missFunction, .missEndFunction, .functionInsideFunction,
   .functionAlreadyDefined, .includeInsideFunction, .includeStackOverflow, .callStackOverflow,
   .argumentCountMismatch, .missingQuotes, .lengthNotDivisibleBy2, .lengthNotDivisibleBy4,
   .setStackOverflow, .ifScopeTooLarge, .asmUnknownMnemonic, .asmWrongSyntax, .asmUndefinedLabel,
   .asmLabelAlreadyDefined, .asmUnknownRegister, .asmWrongDest, .asmWrongInterlock,
   .asmImmediateValueInvalid, .asmShiftAmountValueInvalid]

/-- The kind of fault with a number. -/
def ofCode (code : Int) : Fault :=
  if code < 0 then .unlisted code else (all[code.toNat]?).getD (.unlisted code)

/-- The name of a fault as it stands in reports. -/
def name : Fault → Bytes
  | .noError => ascii "OK"
  | .unknownCommand => ascii "UNKNOWN_COMMAND"
  | .wrongSyntax => ascii "WRONG_SYNTAX"
  | .addressInvalid => ascii "ADDRESS_INVALID"
  | .valueInvalid => ascii "VALUE_INVALID"
  | .missEndIf => ascii "MISS_ENDIF"
  | .missAsmStart => ascii "MISS_ASM_START"
  | .missAsmEnd => ascii "MISS_ASM_END"
  | .missFunction => ascii "MISS_FUNCTION"
  | .missEndFunction => ascii "MISS_ENDFUNCTION"
  | .functionInsideFunction => ascii "FUNCTION_COMMAND_INSIDE_FUNCTION_DEFINITION"
  | .functionAlreadyDefined => ascii "FUNCTION_ALREADY_DEFINED"
  | .includeInsideFunction => ascii "INCLUDE_COMMAND_INSIDE_FUNCTION_DEFINITION"
  | .includeStackOverflow => ascii "INCLUDE_STACK_OVERFLOW"
  | .callStackOverflow => ascii "CALL_STACK_OVERFLOW"
  | .argumentCountMismatch => ascii "ARGUMENT_COUNT_MISMATCH"
  | .missingQuotes => ascii "MISSING_QUOTES"
  | .lengthNotDivisibleBy2 => ascii "LENGTH_MUST_BE_DIVISIBLE_BY_2"
  | .lengthNotDivisibleBy4 => ascii "LENGTH_MUST_BE_DIVISIBLE_BY_4"
  | .setStackOverflow => ascii "SET_STACK_OVERFLOW"
  | .ifScopeTooLarge => ascii "IF_SCOPE_TOO_LARGE"
  | .asmUnknownMnemonic => ascii "ASM_UNKNOWN_MNEMONIC"
  | .asmWrongSyntax => ascii "ASM_WRONG_SYNTAX"
  | .asmUndefinedLabel => ascii "ASM_UNDEFINED_LABEL"
  | .asmLabelAlreadyDefined => ascii "ASM_LABEL_ALREADY_DEFINED"
  | .asmUnknownRegister => ascii "ASM_UNKNOWN_REGISTER"
  | .asmWrongDest => ascii "ASM_WRONG_DEST"
  | .asmWrongInterlock => ascii "ASM_WRONG_INTERLOCK"
  | .asmImmediateValueInvalid => ascii "ASM_IMMEDIATE_VALUE_INVALID"
  | .asmShiftAmountValueInvalid => ascii "ASM_SHIFT_AMOUNT_VALUE_INVALID"
  | .unlisted code => ascii "ErrorKind(" ++ Decimal.integer code ++ ascii ")"

/-- The explanation of a fault for the author of the script. -/
def explanation : Fault → Bytes
  | .noError =>
    ascii "No error."
  | .unknownCommand =>
    ascii "The command is not part of the language. See the list of supported commands in the "
      ++ ascii "documentation."
  | .wrongSyntax =>
    ascii "The command's arguments do not follow its syntax. See the command list in the "
      ++ ascii "documentation."
  | .addressInvalid =>
    ascii "The (ADDRESS) argument was invalid. An address is 1 to 8 hex digits, optionally "
      ++ ascii "negative and optionally prefixed with 0x."
  | .valueInvalid =>
    ascii "The (VALUE) argument was invalid or out of range for this command."
  | .missEndIf =>
    ascii "An \"If\" scope was opened but not closed. Every \"If\" needs a matching \"EndIf\"."
  | .missAsmStart =>
    ascii "An \"ASM_END\" was found without a preceding \"ASM_START\"."
  | .missAsmEnd =>
    ascii "An \"ASM_START\" scope was opened but not closed. Every \"ASM_START\" needs a "
      ++ ascii "matching \"ASM_END\"."
  | .missFunction =>
    ascii "An \"EndFunction\" was found without a preceding \"Function\"."
  | .missEndFunction =>
    ascii "A \"Function\" scope was opened but not closed. Every \"Function\" needs a matching "
      ++ ascii "\"EndFunction\"."
  | .functionInsideFunction =>
    ascii "A \"Function\" command appears inside another \"Function\" definition. Function "
      ++ ascii "definitions cannot be nested."
  | .functionAlreadyDefined =>
    ascii "A function with the same (NAME) is already defined. A function can only be defined "
      ++ ascii "once."
  | .includeInsideFunction =>
    ascii "An \"Include\" command appears inside a \"Function\" definition. Move the include "
      ++ ascii "outside of the function."
  | .includeStackOverflow =>
    ascii "An \"Include\" command tries to include a file that is already being included.\nA "
      ++ ascii "file cannot include itself, directly or through other files."
  | .callStackOverflow =>
    ascii "A \"Call\" command calls a function that is already being expanded.\nRecursive "
      ++ ascii "functions are not allowed."
  | .argumentCountMismatch =>
    ascii "The \"Call\" passes a different number of arguments than the \"Function\" "
      ++ ascii "definition declares."
  | .missingQuotes =>
    ascii "The argument must start and end with quotes."
  | .lengthNotDivisibleBy2 =>
    ascii "The length argument must be divisible by 2."
  | .lengthNotDivisibleBy4 =>
    ascii "The length argument must be divisible by 4."
  | .setStackOverflow =>
    ascii "A \"Set\" variable refers back to itself through its own values.\nVariable chains "
      ++ ascii "must not form a cycle."
  | .ifScopeTooLarge =>
    ascii "An \"If\" scope holds a command that produces more than 255 lines on its own, so "
      ++ ascii "the scope cannot be split."
  | .asmUnknownMnemonic =>
    ascii "The assembler does not know this opcode. Not every R5900 instruction is supported."
  | .asmWrongSyntax =>
    ascii "The assembler could not assemble the instruction. Check its operands."
  | .asmUndefinedLabel =>
    ascii "A branch refers to a label that is not defined in this assembly scope."
  | .asmLabelAlreadyDefined =>
    ascii "A label with the same name already exists in this assembly scope.\nLabels are "
      ++ ascii "case-insensitive."
  | .asmUnknownRegister =>
    ascii "The instruction uses an unknown register."
  | .asmWrongDest =>
    ascii "The \"dest\" field is wrong. It should have length between 1 and 4 with letters "
      ++ ascii "x,y,z,w each once, in that order."
  | .asmWrongInterlock =>
    ascii "The \"interlock\" field is wrong. The only allowed suffix is \"i\"."
  | .asmImmediateValueInvalid =>
    ascii "The \"immediate\" field is wrong."
  | .asmShiftAmountValueInvalid =>
    ascii "The \"shift amount\" field is wrong. The shift amount should be between 0x00 and "
      ++ ascii "0x1F."
  | .unlisted _ => []

/-- One line that names the fault and the place of the command at fault. -/
def summary (kind : Fault) : Option Command → Bytes
  | none => kind.name
  | some c =>
    kind.name ++ ascii " at line " ++ Decimal.integer (lineNumber c.lineIndex) ++ ascii " in file "
      ++ c.file ++ ascii ": " ++ c.text

/-- The line of a report for one source line on the way to the fault. -/
def frameLine (f : Frame) : Bytes :=
  ascii "\nat " ++ f.file ++ ascii ":" ++ Decimal.integer (lineNumber f.index) ++
    ascii " - " ++ f.line

/-- The full report: the fault, its explanation, the line, and the way to it from the main
script. -/
def report (kind : Fault) (command : Option Command) : Bytes :=
  let file := (command.map Command.file).getD []
  let index := (command.map Command.lineIndex).getD 0
  let text := (command.map Command.text).getD []
  let trace := (command.map Command.trace).getD []
  ascii "ERROR: " ++ kind.name ++ ascii " at line " ++ Decimal.integer (lineNumber index)
    ++ ascii " in file " ++ file ++ ascii "\n" ++ kind.explanation
    ++ ascii "\n\nLine that produced the error:\n" ++ text
    ++ ascii "\n\nTraceback:" ++ trace.reverse.flatMap frameLine

end Fault

/-- A fault and the command that is to blame. -/
structure Failure where
  /-- What is wrong. -/
  kind : Fault
  /-- The command at fault. -/
  command : Command
  deriving DecidableEq, Repr

/-- The one-line text of a failure. -/
def Failure.message (f : Failure) : Bytes := f.kind.summary (some f.command)

/-- The full report of a failure. -/
def Failure.report (f : Failure) : Bytes := f.kind.report (some f.command)

/-- The failure of a command for a fault. -/
def Command.refuse {α : Type} (command : Command) (kind : Fault) : Except Failure α :=
  .error ⟨kind, command⟩

/-- Blames `command` for a fault found while reading its arguments. -/
def Command.blame {α : Type} (command : Command) : Except Fault α → Except Failure α
  | .ok a => .ok a
  | .error kind => .error ⟨kind, command⟩

end CheatScript
