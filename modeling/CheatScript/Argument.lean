import CheatScript.Fault
import CheatScript.Literal

/-!
# Arguments

Readers for the arguments of a command. An argument may go on over plus terms, `base +0x10 +off`, so
a reader takes the remaining tokens, adds up the terms of one argument and hands back the tokens
after it.
-/

namespace CheatScript

/-- A reader of one argument: its value and the tokens after it, or what is wrong with it. -/
abbrev Reader (α : Type) := List Bytes → Except Fault (α × List Bytes)

namespace Argument

/-- Whether a token has the given sign in front. -/
def hasMark (mark : UInt8) (token : Bytes) : Bool := token.head? == some mark

/-- The plus terms in front, without their signs, and the tokens after them. -/
def plusTerms (tokens : List Bytes) : List Bytes × List Bytes :=
  ((tokens.takeWhile (hasMark Byte.plus)).map List.tail, tokens.dropWhile (hasMark Byte.plus))

/-- The value of a token if it has the right form and its conversion succeeds. -/
def literal (isForm : Bytes → Bool) (value : Bytes → Except NumeralError Word) (fault : Fault)
    (token : Bytes) : Except Fault Word :=
  if isForm token then
    match value token with
    | .ok v => .ok v
    | .error _ => .error fault
  else .error fault

/-- The sum of the values of some tokens, modulo `2 ^ 32`. -/
def sum (value : Bytes → Except Fault Word) : List Bytes → Except Fault Word
  | [] => .ok 0
  | t :: ts => do
    let v ← value t
    let rest ← sum value ts
    return v + rest

/-- Reads a token and its plus terms as the sum of their values. -/
def sumReader (value : Bytes → Except Fault Word) : Reader Word
  | [] => .error .wrongSyntax
  | t :: tokens => do
    let v ← value t
    let rest ← sum value (plusTerms tokens).1
    return (v + rest, (plusTerms tokens).2)

/-! ## Addresses -/

/-- The value of one address literal. -/
def addressValue : Bytes → Except Fault Word :=
  literal Literal.isAddress Literal.address .addressInvalid

/-- Reads an address with its plus terms. -/
def address : Reader Word := sumReader addressValue

/-- Reads on in a pointer chain whose current element has the sum `acc` so far: plus terms are added
to it, a comma term starts the next element, and any other token ends the chain. -/
def chainFrom : (acc : Word) → Reader (List Word)
  | acc, [] => .ok ([acc], [])
  | acc, t :: tokens =>
    if hasMark Byte.comma t then do
      let v ← addressValue t.tail
      let (vs, rest) ← chainFrom v tokens
      return (acc :: vs, rest)
    else if hasMark Byte.plus t then do
      let v ← addressValue t.tail
      chainFrom (acc + v) tokens
    else .ok ([acc], t :: tokens)

/-- Reads a pointer chain `base,off1,off2+x` as the list of its sums. A chain that ends the command
loses its last element if that is zero. -/
def chain : Reader (List Word)
  | [] => .error .wrongSyntax
  | t :: tokens => do
    let base ← addressValue t
    let (all, rest) ← chainFrom base tokens
    let kept := if rest.isEmpty && all.getLast? == some 0 then all.dropLast else all
    if kept.isEmpty then .error .wrongSyntax else return (kept, rest)

/-- The digits of a pointer chain: seven for the base, eight for each offset. -/
def chainDigits : List Word → List Bytes
  | [] => []
  | base :: vs => Hex.fixed 7 base.toNat :: vs.map Hex.word

/-! ## Numbers -/

/-- The value of one integer literal. -/
def integerValue : Bytes → Except Fault Word :=
  literal Literal.isInteger Literal.integer .valueInvalid

/-- Reads an integer with its plus terms. -/
def integer : Reader Word := sumReader integerValue

/-- The value of one float literal. -/
def floatValue : Bytes → Except Fault Word := literal Literal.isFloat Literal.float .valueInvalid

/-- Adds decimal terms to a float one after the other, rounding each sum, and leaves the sum of the
hexadecimal terms apart. -/
def addFloatTerms : (bits raw : Word) → List Bytes → Except Fault (Word × Word)
  | bits, raw, [] => .ok (bits, raw)
  | bits, raw, t :: ts => do
    let v ← floatValue t
    if Literal.isHexMarked t then addFloatTerms bits (raw + v) ts
    else addFloatTerms (Single.add v bits) raw ts

/-- Reads a float as its pattern. Decimal plus terms are added as floats; hexadecimal ones are added
to the final pattern as integers. -/
def float : Reader Word
  | [] => .error .wrongSyntax
  | t :: tokens => do
    let first ← floatValue t
    let (bits, raw) ← addFloatTerms first 0 (plusTerms tokens).1
    return (bits + raw, (plusTerms tokens).2)

/-! ## Texts -/

/-- Whether a text has a quote at either end. -/
def isQuoted (s : Bytes) : Bool :=
  1 < s.length && s.head? == some Byte.quote && s.getLast? == some Byte.quote

/-- The text between the first and the last quote; empty if there are not two. -/
def insideQuotes (s : Bytes) : Bytes := match Bytes.cut? Byte.quote s with
  | none => []
  | some (_, rest) => match Bytes.cutLast? Byte.quote rest with
    | none => []
    | some (inside, _) => inside

/-- A text that lacks its quotes. -/
structure NotQuoted where
  /-- The text. -/
  text : Bytes

/-- The complaint about missing quotes. -/
def NotQuoted.message (e : NotQuoted) : Bytes := e.text ++ ascii ": not quoted"

/-- The text between the outer quotes. -/
def unquote (s : Bytes) : Except NotQuoted Bytes :=
  if isQuoted s then .ok (insideQuotes s) else .error ⟨s⟩

/-- A text argument while its terms are joined. -/
structure Joined where
  /-- The text so far, perhaps with its quotes. -/
  text : Bytes := []
  /-- The sum of the integer terms since the last text term. -/
  pending : Word := 0

/-- Adds a text at the end; a closing quote stays at the end. -/
def Joined.append (j : Joined) (s : Bytes) : Joined :=
  if Bytes.endsWith [Byte.quote] j.text then
    { j with text := Bytes.dropEndWhile (· == Byte.quote) j.text ++ s ++ [Byte.quote] }
  else { j with text := j.text ++ s }

/-- Writes the pending sum, unless it is zero, as decimal digits. -/
def Joined.flush (j : Joined) : Joined :=
  if j.pending = 0 then j
  else { j.append (Decimal.natural j.pending.toNat) with pending := 0 }

/-- The value of one integer term of a text. -/
def textInteger : Bytes → Except Fault Word :=
  literal Literal.isInteger Literal.unsignedInteger .valueInvalid

/-- Joins the terms of a text argument, which has to be the last one of its command. -/
def joinTerms : Joined → List Bytes → Except Fault Joined
  | j, [] => .ok j.flush
  | j, t :: ts =>
    if !hasMark Byte.plus t || t.length == 1 then .error .wrongSyntax
    else
      let term := t.tail
      if !hasMark Byte.quote term then do
        let v ← textInteger term
        joinTerms { j with pending := j.pending + v } ts
      else if !isQuoted term then .error .missingQuotes
      else joinTerms (j.flush.append (insideQuotes term)) ts

/-- Reads a text: quoted strings and integers chained with `+`. A run of integers stands for the
decimal digits of its sum. -/
def text : Reader Bytes
  | [] => .error .wrongSyntax
  | t :: tokens => do
    let start ← (if hasMark Byte.quote t then .ok { text := t }
      else do
        let v ← textInteger t
        return { pending := v } : Except Fault Joined)
    let j ← joinTerms start tokens
    return (if isQuoted j.text then insideQuotes j.text else j.text, [])

end Argument

end CheatScript
