import CheatScript.Scope.Nesting

/-!
# Split scopes

The line of a condition can skip at most 255 lines. A longer scope is split into parts: where a part
is full, all open scopes are closed and opened again. A part counts its lines from the outermost
condition on, the conditions inside it included.
-/

namespace CheatScript.Scope

/-- The number of lines a condition can skip. -/
def maxLines : Nat := 255

/-- A condition whose scope is open. -/
abbrev OpenTest := Command × Condition

/-- The condition as a piece. -/
def OpenTest.piece (t : OpenTest) : Piece := .test t.1 t.2

/-- Whether a piece fits a part that has `lines` lines, while `depth` scopes are open. A condition
needs room for a line after it, unless no line follows in the outermost scope. -/
def fits (depth lines : Nat) (p : Piece) (rest : List Piece) : Bool :=
  lines + p.weight ≤ maxLines && (match p with
    | .test _ _ => lines + 1 < maxLines || (weightFrom depth rest).getD 0 == 0
    | _ => true)

/-- The scopes that are open after a piece, from the outermost on. -/
def openAfter (tests : List OpenTest) : Piece → List OpenTest
  | .test c condition => tests ++ [(c, condition)]
  | .close => tests.dropLast
  | .output _ _ => tests

/-- Closes all open scopes and opens them again. -/
def reopen (tests : List OpenTest) : List Piece :=
  List.replicate tests.length .close ++ tests.map OpenTest.piece

/-- The command of a piece. -/
def commandOf? : Piece → Option Command
  | .test c _ => some c
  | .close => none
  | .output c _ => some c

/-- Splits from a place on where `tests` are open and the part has `lines` lines. A piece that does
not even fit a fresh part makes the scope too large. -/
def splitFrom : (tests : List OpenTest) → (lines : Nat) → List Piece → Except Failure (List Piece)
  | _, _, [] => .ok []
  | [], _, p :: rest => do
    let rest ← splitFrom (openAfter [] p) 0 rest
    return p :: rest
  | t :: tests, lines, p :: rest =>
    let depth := tests.length + 1
    if fits depth lines p rest then do
      let rest ← splitFrom (openAfter (t :: tests) p) (lines + p.weight) rest
      return p :: rest
    else if fits depth tests.length p rest then do
      let rest ← splitFrom (openAfter (t :: tests) p) (tests.length + p.weight) rest
      return reopen (t :: tests) ++ p :: rest
    else match commandOf? p with
      | some c => c.refuse .ifScopeTooLarge
      | none => .ok (p :: rest)

/-- The pieces with every scope of at most 255 lines. -/
def split (pieces : List Piece) : Except Failure (List Piece) := splitFrom [] 0 pieces

end CheatScript.Scope
