import CheatScript.Rendering

/-!
# Scopes

A condition opens a scope that the matching end closes. An end without an open scope has no effect.
-/

namespace CheatScript.Scope

/-- The lines up to the end of the scope that is open, if it is closed; `depth` scopes inside it are
open as well. -/
def weightFrom : (depth : Nat) → List Piece → Option Nat
  | _, [] => none
  | 0, .close :: _ => some 0
  | depth + 1, .close :: rest => weightFrom depth rest
  | depth, .test _ _ :: rest => (weightFrom (depth + 1) rest).map (· + 1)
  | depth, .output _ f :: rest => (weightFrom depth rest).map (· + f.weight)

/-- The lines of the scope in front of the given pieces; a scope that is not closed has none. -/
def weight (rest : List Piece) : Nat := (weightFrom 0 rest).getD 0

/-- The first condition whose scope is not closed. -/
def unclosed? : List Piece → Option Command
  | [] => none
  | .test c _ :: rest => if (weightFrom 0 rest).isNone then some c else unclosed? rest
  | _ :: rest => unclosed? rest

end CheatScript.Scope
