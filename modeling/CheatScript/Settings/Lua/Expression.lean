import CheatScript.Settings.Lua.Token

/-!
# Expressions of settings scripts

An expression is read from tokens by the binding powers of its operators and has a value once the
global variables are known. A sum takes a text that spells a number for that number, and a
concatenation takes a number for its text.
-/

namespace CheatScript.Lua

/-- A value. -/
inductive Value
  /-- No value. -/
  | nil
  /-- A truth value. -/
  | boolean (b : Bool)
  /-- A number. -/
  | number (n : Double)
  /-- A text. -/
  | string (s : Bytes)
  /-- An empty table. -/
  | table (identity : Nat)
  deriving DecidableEq, Repr

/-- The name of the type of a value. -/
def Value.typeName : Value → Bytes
  | .nil => ascii "nil"
  | .boolean _ => ascii "boolean"
  | .number _ => ascii "number"
  | .string _ => ascii "string"
  | .table _ => ascii "table"

/-- Whether a value counts as true. -/
def Value.holds : Value → Bool
  | .nil => false
  | .boolean b => b
  | _ => true

/-! ## Reading -/

/-- An operator between two expressions. -/
inductive Operator
  /-- The first value that counts as true. -/
  | or
  /-- The first value that counts as false. -/
  | and
  /-- Equality. -/
  | equal
  /-- Inequality. -/
  | notEqual
  /-- Concatenation. -/
  | concat
  /-- Sum. -/
  | plus
  /-- Difference. -/
  | minus
  deriving DecidableEq, Repr

/-- An expression. -/
inductive Expression
  /-- A value. -/
  | value (v : Value)
  /-- A variable. -/
  | global (name : Bytes)
  /-- The opposite truth value. -/
  | not (e : Expression)
  /-- The opposite number. -/
  | negative (e : Expression)
  /-- Two expressions with an operator between them. -/
  | binary (o : Operator) (a b : Expression)
  deriving DecidableEq, Repr

/-- The operator of a token with its binding power to the left and to the right. -/
def operator? : Token → Option (Operator × Nat × Nat)
  | .name s =>
    if s = ascii "or" then some (.or, 1, 1) else if s = ascii "and" then some (.and, 2, 2) else none
  | .symbol s =>
    if s = ascii "==" then some (.equal, 3, 3)
    else if s = ascii "~=" then some (.notEqual, 3, 3)
    else if s = ascii ".." then some (.concat, 5, 4)
    else if s = ascii "+" then some (.plus, 6, 6)
    else if s = ascii "-" then some (.minus, 6, 6)
    else none
  | _ => none

/-- The binding power of an operator in front of an expression. -/
def unaryPower : Nat := 8

/-- The words of the language, which are no names of variables. -/
def keywords : List Bytes :=
  ["and", "break", "do", "else", "elseif", "end", "false", "for", "function", "goto", "if", "in",
   "local", "nil", "not", "or", "repeat", "return", "then", "true", "until", "while"].map ascii

mutual

/-- An expression whose operators bind tighter than `power`, and the tokens after it. -/
def expression? : (fuel : Nat) → (power : Nat) → List Token → Option (Expression × List Token)
  | 0, _, _ => none
  | fuel + 1, power, tokens => match operand? fuel tokens with
    | none => none
    | some (left, rest) => continue? fuel power left rest

/-- Goes on after a left side as long as operators bind tighter than `power`. -/
def continue? : (fuel : Nat) → (power : Nat) → Expression → List Token →
    Option (Expression × List Token)
  | 0, _, _, _ => none
  | fuel + 1, power, left, tokens => match tokens with
    | [] => some (left, [])
    | token :: rest => match operator? token with
      | none => some (left, tokens)
      | some (o, leftPower, rightPower) =>
        if leftPower ≤ power then some (left, tokens)
        else match expression? fuel rightPower rest with
          | none => none
          | some (right, rest) => continue? fuel power (.binary o left right) rest

/-- An expression without operators between its parts, and the tokens after it. -/
def operand? : (fuel : Nat) → List Token → Option (Expression × List Token)
  | 0, _ => none
  | _, [] => none
  | fuel + 1, token :: rest => match token with
    | .number n => some (.value (.number n), rest)
    | .string s => some (.value (.string s), rest)
    | .name s =>
      if s = ascii "nil" then some (.value .nil, rest)
      else if s = ascii "true" then some (.value (.boolean true), rest)
      else if s = ascii "false" then some (.value (.boolean false), rest)
      else if s = ascii "not" then
        (expression? fuel unaryPower rest).map fun (e, rest) => (.not e, rest)
      else if s ∈ keywords then none
      else some (.global s, rest)
    | .symbol s =>
      if s = ascii "-" then
        (expression? fuel unaryPower rest).map fun (e, rest) => (.negative e, rest)
      else if s = ascii "(" then
        match expression? fuel 0 rest with
        | some (e, .symbol close :: rest) => if close = ascii ")" then some (e, rest) else none
        | _ => none
      else if s = ascii "\x7b" then
        match rest with
        | .symbol close :: rest =>
          if close = ascii "\x7d" then some (.value (.table rest.length), rest) else none
        | _ => none
      else if s = ascii "..." then some (.value .nil, rest)
      else none

end

/-! ## Evaluation -/

/-- The global variables that are set. -/
abbrev Globals := List (Bytes × Value)

/-- The value of a variable. -/
def Globals.get (g : Globals) (name : Bytes) : Value := (g.lookup name).getD .nil

/-- A value as a number: a number, or a text that spells one. -/
def Value.number? : Value → Option Double
  | .number n => some n
  | .string s => NumberText.read? s
  | _ => none

/-- A value as a part of a text. -/
def Value.text? : Value → Option Bytes
  | .number n => some (NumberText.write n)
  | .string s => some s
  | _ => none

/-- Whether two values are equal. -/
def Value.eq : Value → Value → Bool
  | .number a, .number b => a.eq b
  | a, b => a == b

/-- The value of an expression; none if it has none. -/
def Expression.eval (g : Globals) : Expression → Option Value
  | .value v => some v
  | .global name => some (g.get name)
  | .not e => do
    let v ← e.eval g
    return .boolean (!v.holds)
  | .negative e => do
    let v ← e.eval g
    let n ← v.number?
    return .number n.neg
  | .binary o a b => do
    let left ← a.eval g
    match o with
    | .or => if left.holds then return left else b.eval g
    | .and => if left.holds then b.eval g else return left
    | .equal => return .boolean (left.eq (← b.eval g))
    | .notEqual => return .boolean (!left.eq (← b.eval g))
    | .concat => return .string ((← left.text?) ++ (← (← b.eval g).text?))
    | .plus => return .number ((← left.number?).add (← (← b.eval g).number?))
    | .minus => return .number ((← left.number?).add (← (← b.eval g).number?).neg)

end CheatScript.Lua
