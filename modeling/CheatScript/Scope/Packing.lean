import CheatScript.Scope.Splitting

/-!
# Packed scopes

The codes have no ends of scopes: each condition says how many lines it skips. Packing turns clauses
into nested scopes, splits long scopes and counts the lines of each.
-/

namespace CheatScript

/-- A piece of the codes. -/
inductive Packed
  /-- A condition that skips a number of lines when it does not hold. -/
  | test (condition : Condition) (skip : Nat)
  /-- Codes and texts. -/
  | output (fragment : Fragment)
  deriving DecidableEq, Repr

/-- The text of a piece of the codes. -/
def Packed.text (type : ConditionType) : Packed → Bytes
  | .test condition skip => Fragment.linesText [condition.line type skip]
  | .output f => f.text

namespace Scope

/-- Replaces each scope by a condition that skips its lines. -/
def flatten : List Piece → List Packed
  | [] => []
  | .test _ condition :: rest => .test condition (weight rest) :: flatten rest
  | .close :: rest => flatten rest
  | .output _ f :: rest => .output f :: flatten rest

/-- Packs the scopes of a script. -/
def pack (pieces : List Piece) : Except Failure (List Packed) :=
  match unclosed? pieces with
  | some c => c.refuse .missEndIf
  | none => do
    let pieces ← nest pieces
    let pieces ← split pieces
    return flatten pieces

end Scope

end CheatScript
