import CheatScript.Text.Upper
import CheatScript.Token.Quote

/-!
# Tokens

A script line is split into tokens. At each byte the scanner tries, in this order:

* a group, from `(` to the last `)` of the line;
* a quoted string, possibly without its closing quote;
* a plus term: `+`, blanks, then a quoted string or a run, possibly nothing;
* a comma term: `,`, then a run, possibly in quotes;
* a word: a run of anything but blanks, `(`, `+` and `,`.

A byte where nothing fits is passed over. A plus or comma term has to stop at a boundary: before
`+`, `,` or a space, or at the end of the line. Where the preferred reading cannot stop there, the
shorter ones are tried; the functions below list the readings in the order of preference. Every
matcher says how many bytes the token takes.
-/

namespace CheatScript.Token

/-- Whether a plus or comma term may stop before the bytes `s`. -/
def isBoundary : Bytes → Bool
  | [] => true
  | c :: _ => c == Byte.plus || c == Byte.space || c == Byte.comma

/-- The length of the shortest run at the start of `s` that `ok` accepts by what follows it. The run
has at least one byte and none in `stop`. -/
def shortestRun (stop : UInt8 → Bool) (ok : Bytes → Bool) : Bytes → Option Nat
  | [] => none
  | c :: s =>
    if stop c then none
    else if ok s then some 1
    else (shortestRun stop ok s).map (· + 1)

/-- The first result of `f` at `n`, `n - 1`, … 0. -/
def firstDown (f : Nat → Option Nat) : Nat → Option Nat
  | 0 => f 0
  | n + 1 => (f (n + 1)).or (firstDown f n)

/-! ## The kinds of token -/

/-- A group: from `(` to the last `)`. -/
def group? : Bytes → Option Nat
  | [] => none
  | c :: s =>
    if c = Byte.opening then (Bytes.cutLast? Byte.closing s).map fun (inside, _) =>
      inside.length + 2
    else none

/-- A quoted string in its preferred reading. -/
def quoted? : Bytes → Option Nat
  | [] => none
  | c :: s => if c = Byte.quote then (Quote.quoteEnds s).head? else none

/-- The text of a plus term after its blanks: a quoted string or a run that stops at a boundary. -/
def plusText? : Bytes → Option Nat
  | [] => none
  | c :: s =>
    if c = Byte.quote then (Quote.quoteEnds s).find? fun e => isBoundary ((c :: s).drop e)
    else shortestRun (fun b => b == Byte.plus || b == Byte.quote) isBoundary (c :: s)

/-- A plus term. The blanks after the sign are tried as separators first and as text after that;
with `bare`, a sign that nothing but blanks follow is a term too. -/
def plusTerm? (bare : Bool) : Bytes → Option Nat
  | [] => none
  | c :: s =>
    if c = Byte.plus then
      (firstDown (fun k =>
        (plusText? (s.drop k)).map (· + k) |>.or
          (if bare && isBoundary (s.drop k) then some k else none))
        (s.takeWhile Byte.isBlank).length).map (· + 1)
    else none

/-- The text of a comma term, after the blanks that separate it. -/
def commaText? (ok : Bytes → Bool) (s : Bytes) : Option Nat :=
  firstDown (fun k =>
    (shortestRun (fun b => b == Byte.comma || b == Byte.quote) ok (s.drop k)).map (· + k))
    (s.takeWhile (· == Byte.space)).length

/-- Whether the bytes `s` close a quoted comma term at a boundary. -/
def closesQuote : Bytes → Bool
  | [] => false
  | c :: s => c == Byte.quote && isBoundary s

/-- The part of a comma term after its comma: in quotes if that can be, or without. -/
def commaRest? (s : Bytes) : Option Nat :=
  (match s with
    | c :: s' => if c = Byte.quote then (commaText? closesQuote s').map (· + 2) else none
    | [] => none) |>.or (commaText? isBoundary s)

/-- A comma term. -/
def commaTerm? : Bytes → Option Nat
  | [] => none
  | c :: s => if c = Byte.comma then (commaRest? s).map (· + 1) else none

/-- Whether a byte can be part of a word. -/
def isWordByte (c : UInt8) : Bool :=
  !Byte.isBlank c && c != Byte.opening && c != Byte.plus && c != Byte.comma

/-- A word. -/
def word? (s : Bytes) : Option Nat :=
  match (s.takeWhile isWordByte).length with
  | 0 => none
  | n + 1 => some (n + 1)

/-- The length of the token at the start of a line's remaining bytes. -/
def line? (s : Bytes) : Option Nat :=
  group? s |>.or (quoted? s) |>.or (plusTerm? true s) |>.or (commaTerm? s) |>.or (word? s)

/-- The length of the plus term or word at the start of an argument's remaining bytes. -/
def term? (s : Bytes) : Option Nat := plusTerm? false s |>.or (word? s)

/-! ## Scanning -/

/-- The tokens that `next` finds, from the left, after `skip` more bytes. -/
def scanFrom (next : Bytes → Option Nat) : (skip : Nat) → Bytes → List Bytes
  | _, [] => []
  | skip + 1, _ :: s => scanFrom next skip s
  | 0, c :: s => match next (c :: s) with
    | some n => (c :: s).take n :: scanFrom next (n - 1) s
    | none => scanFrom next 0 s

/-- The tokens of a line. -/
def scan (s : Bytes) : List Bytes := scanFrom line? 0 s

/-- The words and plus terms of one argument, such as `base+0x10`. -/
def splitTerms (s : Bytes) : List Bytes := scanFrom term? 0 s

/-- The name of a line's command in upper case, and its arguments. Arguments keep the `+` or `,` in
front of them. -/
def ofLine (s : Bytes) : Bytes × List Bytes :=
  match scan s with
  | [] => ([], [])
  | name :: args => (Bytes.upper name, args)

end CheatScript.Token
