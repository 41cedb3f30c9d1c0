import CheatScript.Settings
import CheatScript.Settings.Lua.Expression

/-!
# Settings in Lua

A settings script assigns global variables. The settings are read from the variables of their names
after it has run; a variable that is not set leaves its setting alone. Scripts are lists of
assignments whose right sides are expressions without calls.
-/

namespace CheatScript.Lua

/-! ## Scripts -/

/-- The names on the left of an assignment, and the tokens after the equals sign. -/
def targets? : List Token → Option (List Bytes × List Token)
  | .name s :: .symbol t :: rest =>
    if s ∈ keywords then none
    else if t = ascii "=" then some ([s], rest)
    else if t = ascii "," then (targets? rest).map fun (names, rest) => (s :: names, rest)
    else none
  | _ => none

/-- The expressions on the right of an assignment, and the tokens after them. -/
def sources? : (fuel : Nat) → List Token → Option (List Expression × List Token)
  | 0, _ => none
  | fuel + 1, tokens => match expression? (2 * tokens.length + 2) 0 tokens with
    | none => none
    | some (e, .symbol t :: rest) =>
      if t = ascii "," then (sources? fuel rest).map fun (es, rest) => (e :: es, rest)
      else some ([e], .symbol t :: rest)
    | some (e, rest) => some ([e], rest)

/-- An assignment of expressions to variables. -/
structure Assignment where
  /-- The variables. -/
  names : List Bytes
  /-- The expressions. -/
  values : List Expression
  deriving DecidableEq, Repr

/-- The assignments of a script; none if the tokens are no such script. Every assignment has a
token, so the number of tokens is fuel enough. -/
def assignments? : (fuel : Nat) → List Token → Option (List Assignment)
  | _, [] => some []
  | 0, _ :: _ => none
  | fuel + 1, token :: rest =>
    if token = .symbol (ascii ";") then assignments? fuel rest
    else do
      let (names, rest) ← targets? (token :: rest)
      let (values, rest) ← sources? rest.length rest
      let more ← assignments? fuel rest
      return ⟨names, values⟩ :: more

/-- Runs an assignment. Variables without an expression get no value, and the first of equal names
wins. -/
def Assignment.run (g : Globals) (a : Assignment) : Option Globals := do
  let values ← a.values.mapM (Expression.eval g)
  let padded := values ++ List.replicate (a.names.length - values.length) .nil
  return a.names.zip padded ++ g

/-- The script in a file. A first line that starts with a hash sign is left out except for its last
byte, which is the newline unless the file ends before one; a hash sign alone is no script. -/
def script? (content : Bytes) : Option Bytes := match content with
  | 0x23 :: rest => match rest.dropWhile (· != Byte.newline) with
    | [] => rest.getLast?.map fun c => [c]
    | s => some s
  | _ => some content

/-- The variables after a script has run; none if it is malformed or stops with an error. -/
def run? (content : Bytes) : Option Globals := do
  let text := newlines (← script? content)
  let tokens ← tokens? text.length text
  let script ← assignments? tokens.length tokens
  script.foldlM Assignment.run []

/-! ## Settings -/

/-- What is wrong with a settings script. -/
inductive Problem
  /-- The script is malformed or stops with an error. -/
  | malformed
  /-- A variable does not have the type of its setting. -/
  | wrongType (name want got : Bytes)
  deriving DecidableEq, Repr

/-- The explanation of a problem. -/
def Problem.explanation : Problem → Bytes
  | .malformed => ascii "syntax error"
  | .wrongType name want got => name ++ ascii " must be a " ++ want ++ ascii ", got " ++ got

/-- Puts the value of a variable in the settings. -/
def apply (name : Bytes) (s : Settings) : Setting → Value → Except Problem Settings
  | _, .nil => .ok s
  | .switch set, .boolean b => .ok (set b s)
  | .text set, .string t => .ok (set t s)
  | .number set, .number n => .ok (set n.truncate s)
  | .switch _, v => .error (.wrongType name (ascii "boolean") v.typeName)
  | .text _, v => .error (.wrongType name (ascii "string") v.typeName)
  | .number _, v => .error (.wrongType name (ascii "number") v.typeName)

/-- The settings with those of a script in their place. -/
def load (s : Settings) (content : Bytes) : Except Problem Settings := match run? content with
  | none => .error .malformed
  | some g => Settings.fields.foldlM (fun s f => apply f.name s f.setting (g.get f.name)) s

end CheatScript.Lua
