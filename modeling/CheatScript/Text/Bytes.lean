import CheatScript.Text.Byte

/-!
# Operations on byte strings

Cutting, joining, searching and replacing. Every function recurses on the byte string itself, so
that facts about them go by induction on the text. Functions that jump over a match carry the number
of bytes still to be skipped instead of an index.
-/

namespace CheatScript.Bytes

/-! ## Ends -/

/-- What follows `lead` in `s`, if `s` starts with it. -/
def after? : (lead s : Bytes) → Option Bytes
  | [], s => some s
  | _ :: _, [] => none
  | a :: lead, b :: s => if a = b then after? lead s else none

/-- Whether `s` starts with `lead`. -/
def startsWith (lead s : Bytes) : Bool := (after? lead s).isSome

/-- `s` without `lead` in front, once; `s` itself when it does not start so. -/
def dropLead (lead s : Bytes) : Bytes := (after? lead s).getD s

/-- What precedes `tail` in `s`, if `s` ends with it. -/
def before? (tail s : Bytes) : Option Bytes := (after? tail.reverse s.reverse).map List.reverse

/-- Whether `s` ends with `tail`. -/
def endsWith (tail s : Bytes) : Bool := (before? tail s).isSome

/-- `s` without `tail` at its end, once; `s` itself when it does not end so. -/
def dropTail (tail s : Bytes) : Bytes := (before? tail s).getD s

/-- `s` without the longest run at its end of bytes in `p`. -/
def dropEndWhile (p : UInt8 → Bool) (s : Bytes) : Bytes := (s.reverse.dropWhile p).reverse

/-! ## Search -/

/-- Whether `part` occurs in `s`. -/
def occurs (part : Bytes) : Bytes → Bool
  | [] => part.isEmpty
  | c :: s => startsWith part (c :: s) || occurs part s

/-- The number of occurrences of `part` in `s` that do not overlap, counted from the left, after
`skip` more bytes. -/
def countFrom (part : Bytes) : (skip : Nat) → Bytes → Nat
  | _, [] => 0
  | skip + 1, _ :: s => countFrom part skip s
  | 0, c :: s =>
    if startsWith part (c :: s) then countFrom part (part.length - 1) s + 1 else countFrom part 0 s

/-- The number of occurrences of the non-empty text `part` in `s` that do not overlap. -/
def count (part s : Bytes) : Nat := countFrom part 0 s

/-- The bytes of `s` before the first `c` and those after it, if there is one. -/
def cut? (c : UInt8) : Bytes → Option (Bytes × Bytes)
  | [] => none
  | b :: s => if b = c then some ([], s) else (cut? c s).map fun (l, r) => (b :: l, r)

/-- The bytes of `s` before the last `c` and those after it, if there is one. -/
def cutLast? (c : UInt8) (s : Bytes) : Option (Bytes × Bytes) :=
  (cut? c s.reverse).map fun (r, l) => (l.reverse, r.reverse)

/-! ## Order -/

/-- Whether `s` comes before `t` in the order of their bytes, or is equal to it. -/
def precedes : (s t : Bytes) → Bool
  | [], _ => true
  | _ :: _, [] => false
  | a :: s, b :: t => a < b || (a == b && precedes s t)

/-! ## Split and join -/

/-- The pieces of `s` between occurrences of `sep`; there is always at least one. -/
def split (sep : UInt8) : Bytes → List Bytes
  | [] => [[]]
  | c :: s =>
    if c = sep then [] :: split sep s
    else match split sep s with
      | [] => [[c]]
      | piece :: pieces => (c :: piece) :: pieces

/-- The pieces one after the other with `sep` between them. -/
def join (sep : Bytes) : List Bytes → Bytes
  | [] => []
  | [s] => s
  | s :: rest => s ++ sep ++ join sep rest

/-! ## Replacement -/

/-- Edits from the left, after `skip` more bytes: where `next` finds a match at the start of the
remaining bytes, it gives the length of the match and the text that takes its place. -/
def editFrom (next : Bytes → Option (Nat × Bytes)) : (skip : Nat) → Bytes → Bytes
  | _, [] => []
  | skip + 1, _ :: s => editFrom next skip s
  | 0, c :: s => match next (c :: s) with
    | some (n, new) => new ++ editFrom next (n - 1) s
    | none => c :: editFrom next 0 s

/-- Edits every match of `next` in one pass from the left. Matches are not empty. -/
def edit (next : Bytes → Option (Nat × Bytes)) (s : Bytes) : Bytes := editFrom next 0 s

/-- The first rule whose left side starts `s`, as the length of that side and the text it stands
for. -/
def rule? (rules : List (Bytes × Bytes)) (s : Bytes) : Option (Nat × Bytes) :=
  match rules with
  | [] => none
  | (old, new) :: rest => if startsWith old s then some (old.length, new) else rule? rest s

/-- Replaces every left side of `rules` in `s` by its right side, in one pass from the left; where
several rules fit, the first one wins. Left sides are not empty. -/
def replace (rules : List (Bytes × Bytes)) (s : Bytes) : Bytes := edit (rule? rules) s

/-! ## ASCII case -/

/-- Whether every byte is ASCII. -/
def isAscii (s : Bytes) : Bool := s.all (· < 0x80)

/-- The text with its ASCII letters in lower case. -/
def lower (s : Bytes) : Bytes := s.map Byte.toLower

/-- What follows `lead` in `s`, if `s` starts with it in any case. `lead` is in lower case. -/
def afterFolded? : (lead s : Bytes) → Option Bytes
  | [], s => some s
  | _ :: _, [] => none
  | a :: lead, b :: s => if a = Byte.toLower b then afterFolded? lead s else none

end CheatScript.Bytes
