import CheatScript.Settings
import CheatScript.Settings.Toml.Value

/-!
# Settings in TOML

A settings file of `key = value` lines. Keys are matched without regard to case and underscores.
Tables and keys that name no setting are refused, and so is a value of another type than the setting
has.
-/

namespace CheatScript.Toml

/-- What is wrong with a settings file. -/
inductive Problem
  /-- The text does not follow the syntax. -/
  | malformed
  /-- A key has a value since another line. -/
  | repeated (key : Bytes) (line : Nat)
  /-- A key names no setting. -/
  | unknownKey (key : Bytes)
  /-- A value does not have the type of its setting. -/
  | wrongType (title want got : Bytes)
  deriving DecidableEq, Repr

/-- A problem and the number of its line, from one on. -/
structure Error where
  /-- The line. -/
  line : Nat
  /-- The problem. -/
  problem : Problem
  deriving DecidableEq, Repr

/-- The explanation of an error. -/
def Error.explanation (e : Error) : Bytes :=
  let text := match e.problem with
    | .malformed => ascii "invalid TOML syntax"
    | .repeated key line =>
      ascii "key `" ++ key ++ ascii "\' is in conflict with line " ++ Bytes.lower (Hex.natural line)
        ++ ascii "d"
    | .unknownKey key => ascii "field \'" ++ key ++ ascii "\' is not defined in main.Config"
    | .wrongType title want got =>
      ascii "(main.Config." ++ title ++ ascii ") cannot unmarshal TOML " ++ got ++
        ascii " into " ++ want
  ascii "line " ++ Decimal.natural e.line ++ ascii ": " ++ text

/-! ## Lines -/

/-- The text from the end of a line on, if nothing but a comment comes before that. -/
def lineEnd? (s : Bytes) : Option Bytes :=
  let s := skipSpace s
  let s := if s.head? = some 0x23 then s.dropWhile isCommentByte else s
  if s.head?.all isLineEnd then some s else none

/-- A byte of a key without quotes. -/
def isKeyByte (c : UInt8) : Bool := Byte.isWord c || c == Byte.minus

/-- A key, and the text after it. -/
def key? (s : Bytes) : Option (Bytes × Bytes) := match s with
  | [] => none
  | c :: rest =>
    if c = Byte.quote then
      (basicString? 0 rest).bind fun (text, rest) => if text.isEmpty then
        none else some (text, rest)
    else if isKeyByte c then some (s.takeWhile isKeyByte, s.dropWhile isKeyByte)
    else none

/-- The key and the value at the start of a text, and the text after them. -/
def keyValue? (s : Bytes) : Option (Bytes × Value × Bytes) := do
  let (key, s) ← key? (skipSpace s)
  let s ← Bytes.after? [Byte.equals] (skipSpace s)
  let (value, s) ← value? (skipSpace s)
  return (key, value, s)

/-- The key of a table header at the start of a text. -/
def header? (s : Bytes) : Option Bytes := do
  let s ← Bytes.after? [0x5B] (skipSpace s)
  let (key, s) ← key? (skipSpace s)
  let s ← Bytes.after? [0x5D] (skipSpace s)
  let _ ← lineEnd? s
  return key

/-- A key with its value and the number of its line. -/
structure Entry where
  /-- The line. -/
  line : Nat
  /-- The key. -/
  key : Bytes
  /-- The value. -/
  value : Value

/-- The entries of a text that starts in a line; `before` are the keys before it and their lines.
There is a byte for every step, so one more than the length of the text is fuel enough. -/
def entries : (fuel : Nat) → (line : Nat) → (before : List (Bytes × Nat)) → Bytes →
    Except Error (List Entry)
  | 0, line, _, _ => .error ⟨line, .malformed⟩
  | fuel + 1, line, before, s => match lineEnd? s with
    | some [] => .ok []
    | some (_ :: rest) => entries fuel (line + 1) before rest
    | none => match keyValue? s with
      | none => .error ⟨line, (header? s).elim .malformed .unknownKey⟩
      | some (key, value, rest) => do
        let line := line + (s.take (s.length - rest.length)).countP isLineEnd
        if (lineEnd? rest).isNone then .error ⟨line, .malformed⟩
        if let some first := before.lookup key then .error ⟨line, .repeated key first⟩
        let more ← entries fuel line ((key, line) :: before) rest
        return ⟨line, key, value⟩ :: more

/-! ## Settings -/

/-- The name of the type of a setting. -/
def settingType : Setting → Bytes
  | .switch _ => ascii "bool"
  | .text _ => ascii "string"
  | .number _ => ascii "int"

/-- A character in lower case, as far as that is an ASCII letter: two characters beyond ASCII have
one. -/
def lowerChar (c : Char) : Char :=
  if c = Char.ofNat 0x212A then 'k' else if c = Char.ofNat 0x130 then 'i' else c.toLower

/-- A key without case and underscores. -/
def plainKey (key : Bytes) : List Char := ((Utf8.decode key).map lowerChar).filter (· != '_')

/-- Puts the value of an entry in the settings. -/
def Entry.apply (s : Settings) (e : Entry) : Except Error Settings :=
  match Settings.fields.find? fun f => plainKey f.name == plainKey e.key with
  | none => .error ⟨e.line, .unknownKey e.key⟩
  | some f => match f.setting, e.value with
    | .switch set, .boolean b => .ok (set b s)
    | .text set, .string t => .ok (set t s)
    | .number set, .integer n => .ok (set n s)
    | setting, value => .error ⟨e.line, .wrongType f.title (settingType setting) value.typeName⟩

/-- The settings with those of a file in their place. The file is read as characters, and bytes that
encode none count as the replacement character. -/
def load (s : Settings) (content : Bytes) : Except Error Settings := do
  let text := Utf8.encode (Utf8.decode content)
  let list ← entries (text.length + 1) 1 [] text
  list.foldlM Entry.apply s

end CheatScript.Toml
