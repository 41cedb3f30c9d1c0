import CheatScript.Text.Identifier

/-!
# The form of an If line

An If line reads `If ADDRESS OPERATOR VALUE`, and more such clauses may follow after `&&`. The
grammar looks at the line as it was written, before names are replaced. It may start anywhere in the
line and has to reach the end of it. Letters count in either case.
-/

namespace CheatScript.Condition.Grammar

/-- The text after one to eight hexadecimal digits, all there are. -/
def afterHex? (s : Bytes) : Option Bytes :=
  let n := (s.takeWhile Byte.isHex).length
  if 1 ≤ n && n ≤ 8 then some (s.dropWhile Byte.isHex) else none

/-- The text after one or more decimal digits, all there are. -/
def afterDigits? (s : Bytes) : Option Bytes :=
  if (s.takeWhile Byte.isDigit).isEmpty then none else some (s.dropWhile Byte.isDigit)

/-- The text after a term of an address: hexadecimal with or without `0x`. -/
def afterAddressTerm? (s : Bytes) : Option Bytes :=
  afterHex? ((Bytes.afterFolded? (ascii "0x") s).getD s)

/-- The text after a term of a value: hexadecimal after `0x`, or decimal. -/
def afterValueTerm? (s : Bytes) : Option Bytes := match Bytes.afterFolded? (ascii "0x") s with
  | some digits => afterHex? digits
  | none => afterDigits? s

/-- The text after the plus terms in front, which follow one another without blanks; none if one of
them is malformed. The fuel bounds the number of terms. -/
def afterTerms? (term : Bytes → Option Bytes) : (fuel : Nat) → Bytes → Option Bytes
  | 0, s => some s
  | fuel + 1, s => match Bytes.after? [Byte.plus] s with
    | none => some s
    | some rest => match term (Bytes.dropLead [Byte.minus] (rest.dropWhile Byte.isGap)) with
      | none => none
      | some rest => afterTerms? term fuel rest

/-- What follows an address or a value. -/
structure Tail where
  /-- Whether blanks in front of the text may be skipped. -/
  loose : Bool
  /-- The text. -/
  text : Bytes

/-- What follows a word and its plus terms. The terms may stand apart from the word; after a term no
blank is skipped. -/
def afterSum? (term : Bytes → Option Bytes) (s : Bytes) : Option Tail :=
  match Identifier.cut? s with
  | none => none
  | some (_, rest) =>
    let terms := rest.dropWhile Byte.isGap
    if terms.head? = some Byte.plus then (afterTerms? term terms.length terms).map (Tail.mk false)
    else some ⟨true, rest⟩

/-- The text after the blank that ends an address or a value. -/
def Tail.afterSpace? (t : Tail) : Option Bytes :=
  if t.loose then
    if (t.text.takeWhile Byte.isGap).getLast? = some Byte.space then
      some (t.text.dropWhile Byte.isGap) else none
  else Bytes.after? [Byte.space] t.text

/-- Whether nothing follows. -/
def Tail.isEnd (t : Tail) : Bool :=
  if t.loose then (t.text.dropWhile Byte.isGap).isEmpty else t.text.isEmpty

/-- The operators, the longer ones first. -/
def operators : List Bytes := ["~&", "~|", "=", "!", "<", ">", "&", "|"].map ascii

/-- The text after an operator and the mark of its width. -/
def afterOperator? (s : Bytes) : Option Bytes :=
  match operators.findSome? fun operator => Bytes.after? operator s with
  | some (mark :: rest) => if mark = Byte.colon || mark = Byte.dot then some rest else none
  | _ => none

/-- What follows a clause. -/
def afterClause? (s : Bytes) : Option Tail := do
  let address ← afterSum? afterAddressTerm? s
  let s ← address.afterSpace?
  let s ← afterOperator? s
  let s ← Bytes.after? [Byte.space] s
  afterSum? afterValueTerm? s

/-- Whether the text is one or more clauses joined by `&&`. The fuel bounds their number. -/
def isClauses : (fuel : Nat) → Bytes → Bool
  | 0, _ => false
  | fuel + 1, s => match afterClause? s with
    | none => false
    | some value =>
      value.isEnd ||
        (match value.afterSpace?.bind (Bytes.after? (ascii "&& ")) with
          | some next => isClauses fuel next
          | none => false)

/-- Whether the form of an If line starts somewhere in the text and reaches its end. -/
def accepts : Bytes → Bool
  | [] => false
  | c :: s =>
    (match Bytes.afterFolded? (ascii "if ") (c :: s) with
      | some clauses => isClauses clauses.length clauses
      | none => false) || accepts s

end CheatScript.Condition.Grammar
