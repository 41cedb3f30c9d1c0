import CheatScript.Text.Quoted

/-!
# Flags

The flags in front of the arguments of a command: `-x v`, `-x=v`, `--x v` or `--x=v`. A switch needs
no value. The first argument that is no flag ends them, and so does `--`.
-/

namespace CheatScript

/-- A flag that a command knows. -/
structure FlagSpec where
  /-- The name. -/
  name : Bytes
  /-- A short form of the name, if there is one. -/
  short : Option Bytes := none
  /-- Whether it is a switch. -/
  isSwitch : Bool := false
  /-- The variable of the environment that stands in for it. -/
  variableName : Option Bytes := none
  deriving DecidableEq, Repr

/-- The names of a flag. -/
def FlagSpec.names (f : FlagSpec) : List Bytes := f.name :: f.short.toList

/-- The value of a flag. -/
inductive FlagValue
  /-- The state of a switch. -/
  | switch (on : Bool)
  /-- The text of another flag. -/
  | text (s : Bytes)
  deriving DecidableEq, Repr

/-- A flag that was given, by the name that was used. -/
structure GivenFlag where
  /-- The name that was used. -/
  used : Bytes
  /-- The value. -/
  value : FlagValue
  deriving DecidableEq, Repr

/-- What is wrong with the flags of a command. -/
inductive FlagError
  /-- A malformed flag. -/
  | malformed (arg : Bytes)
  /-- A flag that the command does not know. -/
  | unknown (name : Bytes)
  /-- A flag without a value. -/
  | noValue (name : Bytes)
  /-- A switch with a value that is no truth value. -/
  | badSwitch (name value : Bytes)
  /-- A request for help. -/
  | help
  /-- A flag given by both of its names. -/
  | twoForms (first second : Bytes)
  /-- A variable of the environment whose value is no truth value. -/
  | badVariable (flag variableName value : Bytes)
  deriving DecidableEq, Repr

/-- The explanation of an error. -/
def FlagError.message : FlagError → Bytes
  | .malformed arg => ascii "bad flag syntax: " ++ arg
  | .unknown name => ascii "flag provided but not defined: -" ++ name
  | .noValue name => ascii "flag needs an argument: -" ++ name
  | .badSwitch name value =>
    ascii "invalid boolean value " ++ Quoted.quote value ++ ascii " for -" ++ name
      ++ ascii ": parse error"
  | .help => ascii "flag: help requested"
  | .twoForms first second =>
    ascii "Cannot use two forms of the same flag: " ++ second ++ ascii " " ++ first
  | .badVariable flag variableName value =>
    ascii "could not parse " ++ Quoted.quote value ++
      ascii " as bool value from environment variable "
      ++ Quoted.quote variableName ++ ascii " for flag " ++ flag

namespace Flag

/-- The truth value that a word spells. -/
def truth? (s : Bytes) : Option Bool :=
  if s ∈ ["1", "t", "T", "TRUE", "true", "True"].map ascii then some true
  else if s ∈ ["0", "f", "F", "FALSE", "false", "False"].map ascii then some false
  else none

/-- What an argument is. -/
inductive Shape
  /-- No flag. -/
  | argument
  /-- The end of the flags. -/
  | end
  /-- A malformed flag. -/
  | malformed
  /-- A flag, perhaps with its value. -/
  | flag (name : Bytes) (value : Option Bytes)

/-- The name of a flag and the value after an equals sign, which cannot come first. -/
def cutValue (name : Bytes) : Bytes × Option Bytes := match name with
  | [] => ([], none)
  | c :: rest => match Bytes.cut? Byte.equals rest with
    | some (before, value) => (c :: before, some value)
    | none => (name, none)

/-- What an argument is. -/
def shape (arg : Bytes) : Shape := match Bytes.after? [Byte.minus] arg with
  | none => .argument
  | some [] => .argument
  | some rest =>
    let name := Bytes.dropLead [Byte.minus] rest
    if rest = [Byte.minus] then .end
    else match name with
      | [] => .malformed
      | c :: _ =>
        if c = Byte.minus || c = Byte.equals then .malformed
        else .flag (cutValue name).1 (cutValue name).2

/-- The flag of a command with a name. -/
def find? (specs : List FlagSpec) (name : Bytes) : Option FlagSpec :=
  specs.find? (·.names.contains name)

/-- The value of a switch. -/
def switchValue (name : Bytes) : Option Bytes → Except FlagError FlagValue
  | none => .ok (.switch true)
  | some s => match truth? s with
    | some b => .ok (.switch b)
    | none => .error (.badSwitch name s)

/-- Reads the flags in front; gives them in order with the arguments after them. `pending` is the
name of a flag whose value is the next argument. -/
def readFrom (specs : List FlagSpec) : (pending : Option Bytes) → List Bytes →
    Except FlagError (List GivenFlag × List Bytes)
  | none, [] => .ok ([], [])
  | some name, [] => .error (.noValue name)
  | some name, arg :: args => do
    let (given, rest) ← readFrom specs none args
    return (⟨name, .text arg⟩ :: given, rest)
  | none, arg :: args => match shape arg with
    | .argument => .ok ([], arg :: args)
    | .end => .ok ([], args)
    | .malformed => .error (.malformed arg)
    | .flag name value => match find? specs name with
      | none =>
        .error (if name = ascii "help" || name = ascii "h" then .help else .unknown name)
      | some spec =>
        if spec.isSwitch then do
          let v ← switchValue name value
          let (given, rest) ← readFrom specs none args
          return (⟨name, v⟩ :: given, rest)
        else match value with
          | some s => do
            let (given, rest) ← readFrom specs none args
            return (⟨name, .text s⟩ :: given, rest)
          | none => readFrom specs (some name) args

/-- Reads the flags of a command and gives the arguments after them. -/
def read (specs : List FlagSpec) (args : List Bytes) :
    Except FlagError (List GivenFlag × List Bytes) :=
  readFrom specs none args

/-- The last value given for a flag. -/
def given? (given : List GivenFlag) (spec : FlagSpec) : Option FlagValue :=
  (given.reverse.find? fun g => spec.names.contains g.used).map (·.value)

/-- The value of the variable that stands in for a flag. An empty variable turns a switch off. -/
def fallback? (environment : List (Bytes × Bytes)) (spec : FlagSpec) :
    Except FlagError (Option FlagValue) :=
  match spec.variableName with
  | none => .ok none
  | some name => match environment.lookup name with
    | none => .ok none
    | some value =>
      if spec.isSwitch then
        if value.isEmpty then .ok (some (.switch false))
        else match truth? value with
          | some b => .ok (some (.switch b))
          | none => .error (.badVariable spec.name name value)
      else .ok (some (.text value))

/-- The flag that was given by both of its names. -/
def twoForms? (specs : List FlagSpec) (given : List GivenFlag) : Option FlagError :=
  specs.findSome? fun spec => match spec.names.filter fun n => given.any (·.used == n) with
    | first :: second :: _ => some (.twoForms first second)
    | _ => none

/-- The values of flags by their names: as given, else from the environment. -/
def resolve (specs : List FlagSpec) (environment : List (Bytes × Bytes)) (given : List GivenFlag) :
    Except FlagError (List (Bytes × FlagValue)) := do
  match twoForms? specs given with
  | some e => .error e
  | none =>
    let values ← specs.mapM fun spec => do
      let fallback ← fallback? environment spec
      return (spec.name, (given? given spec).or fallback)
    return values.filterMap fun (name, value) => value.map (name, ·)

/-- The state of a switch, if it is set. -/
def switch? (values : List (Bytes × FlagValue)) (name : Bytes) : Option Bool :=
  match values.lookup name with
  | some (.switch b) => some b
  | _ => none

/-- The text of a flag, if it is set. -/
def text? (values : List (Bytes × FlagValue)) (name : Bytes) : Option Bytes :=
  match values.lookup name with
  | some (.text s) => some s
  | _ => none

end Flag

end CheatScript
