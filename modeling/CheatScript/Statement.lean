import CheatScript.Condition
import CheatScript.Condition.Grammar
import CheatScript.Fragment
import CheatScript.Text.Utf8

/-!
# Statements

The commands that produce codes, by their long and short names, and what each of them stands for.
-/

namespace CheatScript

/-- How the characters of a written string are stored. -/
inductive TextEncoding
  /-- UTF-8. -/
  | utf8
  /-- Little-endian UTF-16. -/
  | utf16
  deriving DecidableEq, Repr

/-- How the texts of a script are stored. The compiler does not depend on it in any other way. -/
class TextEncoder where
  /-- The bytes of a text in an encoding. -/
  encode : TextEncoding → Bytes → Bytes

/-- Stores the characters of a text. Bytes that are not UTF-8 are stored as U+FFFD. -/
instance TextEncoder.ofCharacters : TextEncoder where
  encode
    | .utf8, s => Utf8.encode (Utf8.decode s)
    | .utf16, s => Utf16.encode (Utf8.decode s)

/-- The kind of value at the end of a pointer chain. -/
inductive PointerValue
  /-- An integer. -/
  | integer (width : Width)
  /-- A float. -/
  | float
  deriving DecidableEq, Repr

/-- What a command does. -/
inductive Verb
  /-- Chooses the encoding of the strings that follow. -/
  | setEncoding
  /-- Copies a text into the codes. -/
  | sendRaw
  /-- Copies a text into the codes on lines of its own. -/
  | sendRawWeight
  /-- Writes an integer. -/
  | write (width : Width)
  /-- Writes a float. -/
  | writeFloat
  /-- Writes the characters of a string. -/
  | writeString
  /-- Writes a list of bytes. -/
  | writeBytes
  /-- Writes through a chain of pointers. -/
  | writePointer (value : PointerValue)
  /-- Copies memory. -/
  | copyBytes
  /-- Fills memory with a value. -/
  | fill (width : Width)
  /-- Increments or decrements. -/
  | step (direction : Direction) (width : Width)
  /-- Combines with the bits of a value. -/
  | bitwise (operation : Bitwise) (width : Narrow)
  /-- Opens a scope that depends on a condition. -/
  | openIf
  /-- Closes such a scope. -/
  | closeIf
  deriving DecidableEq, Repr

namespace Verb

/-- The names of the verbs, long and short. -/
def names : List (Bytes × Verb) :=
  [("SETENCODING", setEncoding), ("SE", setEncoding),
   ("SENDRAW", sendRaw), ("SR", sendRaw),
   ("SENDRAWWEIGHT", sendRawWeight), ("SRW", sendRawWeight),
   ("WRITE8", write .byte), ("W8", write .byte),
   ("WRITE16", write .half), ("W16", write .half),
   ("WRITE32", write .word), ("W32", write .word),
   ("WRITEFLOAT", writeFloat), ("WF", writeFloat),
   ("WRITESTRING", writeString), ("WS", writeString),
   ("WRITEBYTES", writeBytes), ("WB", writeBytes),
   ("WRITEPOINTER8", writePointer (.integer .byte)), ("WP8", writePointer (.integer .byte)),
   ("WRITEPOINTER16", writePointer (.integer .half)), ("WP16", writePointer (.integer .half)),
   ("WRITEPOINTER32", writePointer (.integer .word)), ("WP32", writePointer (.integer .word)),
   ("WRITEPOINTERFLOAT", writePointer .float), ("WPF", writePointer .float),
   ("COPYBYTES", copyBytes), ("CB", copyBytes),
   ("FILL8", fill .byte), ("F8", fill .byte),
   ("FILL16", fill .half), ("F16", fill .half),
   ("FILL32", fill .word), ("F32", fill .word),
   ("INCREMENT8", step .increment .byte), ("I8", step .increment .byte),
   ("INCREMENT16", step .increment .half), ("I16", step .increment .half),
   ("INCREMENT32", step .increment .word), ("I32", step .increment .word),
   ("DECREMENT8", step .decrement .byte), ("D8", step .decrement .byte),
   ("DECREMENT16", step .decrement .half), ("D16", step .decrement .half),
   ("DECREMENT32", step .decrement .word), ("D32", step .decrement .word),
   ("OR8", bitwise .or .byte), ("OR16", bitwise .or .half),
   ("AND8", bitwise .and .byte), ("AND16", bitwise .and .half),
   ("XOR8", bitwise .xor .byte), ("XOR16", bitwise .xor .half),
   ("IF", openIf), ("ENDIF", closeIf), ("EI", closeIf)].map fun (name, verb) => (ascii name, verb)

/-- The verb of a name in upper case. -/
def ofName? (name : Bytes) : Option Verb := names.lookup name

end Verb

namespace Statement

/-! ## Arguments -/

/-- A value if no token is left after it. -/
def last {α : Type} : α × List Bytes → Except Fault α
  | (a, []) => .ok a
  | (_, _ :: _) => .error .wrongSyntax

/-- Reads an address and a value. -/
def addressAndValue {α : Type} (value : Reader α) (args : List Bytes) : Except Fault (Word × α) :=
  if args.length < 2 then .error .wrongSyntax
  else do
    let (address, rest) ← Argument.address args
    let v ← last (← value rest)
    return (address, v)

/-- A length of bytes: an integer that is not negative. -/
def length (v : Word) : Except Fault Nat :=
  if v.toInt < 0 then .error .valueInvalid else .ok v.toNat

/-! ## Texts -/

/-- The escapes in a text for the codes. -/
def rawEscapes : List (Bytes × Bytes) :=
  [(ascii "\\n", [Byte.newline]), (ascii "\\t", [Byte.tab]), (ascii "\\\"", [Byte.quote])]

/-- The escapes in a string that is written to memory. -/
def stringEscapes : List (Bytes × Bytes) := (ascii "\\0", [0]) :: rawEscapes

/-- The text of a command that copies it into the codes. -/
def rawText (args : List Bytes) : Except Fault Bytes := do
  let s ← last (← Argument.text args)
  return Bytes.replace rawEscapes s

/-- The encoding a command chooses. -/
def encodingOf : List Bytes → Except Fault TextEncoding
  | [name] =>
    if name = ascii "UTF-8" then .ok .utf8
    else if name = ascii "UTF-16" then .ok .utf16
    else .error .valueInvalid
  | _ => .error .wrongSyntax

/-! ## Codes -/

/-- The writes of a string. -/
def stringCodes [TextEncoder] (encoding : TextEncoding) (args : List Bytes) :
    Except Fault (List Code) := do
  let (address, s) ← addressAndValue Argument.text args
  return Code.ofBytes address (TextEncoder.encode encoding (Bytes.replace stringEscapes s))

/-- The writes of a byte list. -/
def bytesCodes (args : List Bytes) : Except Fault (List Code) := do
  let (address, s) ← addressAndValue Argument.text args
  if Literal.isByteList s then return Code.ofBytes address (Literal.byteList s)
  else .error .valueInvalid

/-- The width and the reader of a value behind pointers. -/
def pointerValue : PointerValue → Width × Reader Word
  | .integer width => (width, Argument.integer)
  | .float => (.word, Argument.float)

/-- The write through a chain of pointers, which has at least one offset. -/
def pointerCode (value : PointerValue) (args : List Bytes) : Except Fault Code :=
  if args.length < 2 then .error .wrongSyntax
  else do
    let (chain, rest) ← Argument.chain args
    let v ← last (← (pointerValue value).2 rest)
    match chain with
    | base :: first :: offsets => return .pointer (pointerValue value).1 base v first offsets
    | _ => .error .wrongSyntax

/-- The copy of a number of bytes. -/
def copyCode (args : List Bytes) : Except Fault Code :=
  if args.length < 3 then .error .wrongSyntax
  else do
    let (source, rest) ← Argument.address args
    let (target, rest) ← Argument.address rest
    let v ← last (← Argument.integer rest)
    let _ ← length v
    return .copy source target v

/-- The number of elements in a number of bytes. At most `0xFFFF` elements fit a fill. -/
def elements (width : Width) (bytes : Nat) : Except Fault Nat :=
  match width with
  | .byte => if 0xFFFF < bytes then .error .valueInvalid else .ok bytes
  | .half =>
    if bytes % 2 ≠ 0 then .error .lengthNotDivisibleBy2
    else if 0x1FFFE < bytes then .error .valueInvalid else .ok (bytes / 2)
  | .word =>
    if bytes % 4 ≠ 0 then .error .lengthNotDivisibleBy4
    else if 0x3FFFC < bytes then .error .valueInvalid else .ok (bytes / 4)

/-- The fill of a number of bytes with a value. -/
def fillCode (width : Width) (args : List Bytes) : Except Fault Code :=
  if args.length < 3 then .error .wrongSyntax
  else do
    let (address, rest) ← Argument.address args
    let (value, rest) ← Argument.integer rest
    let bytes ← length (← last (← Argument.integer rest))
    let count ← elements width bytes
    return .fill width address value count

/-- The first condition of an If line. -/
def conditionOf (line : Bytes) (args : List Bytes) : Except Fault Condition :=
  if args.isEmpty || !Condition.Grammar.accepts line then .error .wrongSyntax
  else Condition.read args

end Statement

/-- What a statement stands for. -/
inductive Statement
  /-- A contribution to the codes. -/
  | emit (fragment : Fragment)
  /-- A choice of the encoding for what follows. -/
  | encoding (encoding : TextEncoding)
  /-- The start of a scope that depends on a condition. -/
  | openIf (condition : Condition)
  /-- The end of such a scope. -/
  | closeIf
  deriving DecidableEq, Repr

namespace Statement

/-- One code as a statement. -/
def single (code : Code) : Statement := .emit (.codes [code])

/-- What a verb with the arguments of a command stands for, under the encoding chosen before it. -/
def ofVerb [TextEncoder] (e : TextEncoding) (c : Command) : Verb → Except Fault Statement
  | .setEncoding => return .encoding (← encodingOf c.args)
  | .sendRaw => return .emit (.inline (← rawText c.args))
  | .sendRawWeight => return .emit (.block (← rawText c.args))
  | .write width => do
    let (address, value) ← addressAndValue Argument.integer c.args
    return single (.write width address value)
  | .writeFloat => do
    let (address, value) ← addressAndValue Argument.float c.args
    return single (.write .word address value)
  | .writeString => return .emit (.codes (← stringCodes e c.args))
  | .writeBytes => return .emit (.codes (← bytesCodes c.args))
  | .writePointer value => return single (← pointerCode value c.args)
  | .copyBytes => return single (← copyCode c.args)
  | .fill width => return single (← fillCode width c.args)
  | .step direction width => do
    let (address, value) ← addressAndValue Argument.integer c.args
    return single (.step direction width address value)
  | .bitwise operation width => do
    let (address, value) ← addressAndValue Argument.integer c.args
    return single (.bitwise operation width address value)
  | .openIf => return .openIf (← conditionOf c.text c.args)
  | .closeIf => return .closeIf

/-- What a command outside asm scopes stands for. -/
def ofCommand [TextEncoder] (e : TextEncoding) (c : Command) : Except Failure Statement :=
  match Verb.ofName? c.name with
  | some verb => c.blame (ofVerb e c verb)
  | none => c.refuse (if c.name = ascii "ASM_END" then .missAsmStart else .unknownCommand)

end Statement

end CheatScript
