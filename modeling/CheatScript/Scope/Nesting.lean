import CheatScript.Scope.Basic

/-!
# Nested conditions

An If with several clauses is a nest of scopes, one for each clause: `If A && B` opens the scope of
`A` and in it that of `B`, and its end closes both. The number of clauses is read off the line as it
was written.
-/

namespace CheatScript.Scope

/-- The token between two clauses. -/
def conjunction : Bytes := ascii "&&"

/-- The tokens after the conjunction with a number, counted from zero. -/
def afterConjunction? : (n : Nat) → List Bytes → Option (List Bytes)
  | _, [] => none
  | n, token :: tokens =>
    if token = conjunction then
      match n with
      | 0 => some tokens
      | n + 1 => afterConjunction? n tokens
    else afterConjunction? n tokens

/-- The tokens of the clause after the conjunction with a number; where there is none, those of the
first clause. -/
def clause (args : List Bytes) (n : Nat) : List Bytes :=
  ((afterConjunction? n args).getD args).takeWhile (· != conjunction)

/-- The number of clauses of a condition beyond its first. -/
def extraClauses (c : Command) : Nat := Bytes.count conjunction c.text

/-- The condition of one more clause. -/
def extraTest (c : Command) (n : Nat) : Except Failure Piece :=
  let c := c.withParts c.name (clause c.args n)
  match Condition.read c.args with
  | .ok condition => .ok (.test c condition)
  | .error kind => c.refuse kind

/-- Opens and closes the scopes of further clauses. `extra` has, for each open scope from the
innermost on, the number of scopes its end has to close besides it. -/
def nestFrom : (extra : List Nat) → List Piece → Except Failure (List Piece)
  | _, [] => .ok []
  | extra, .test c condition :: rest => do
    let n := extraClauses c
    let more ← (List.range n).mapM (extraTest c)
    let rest ← nestFrom (n :: extra) rest
    return .test c condition :: more ++ rest
  | n :: extra, .close :: rest => do
    let rest ← nestFrom extra rest
    return List.replicate (n + 1) .close ++ rest
  | extra, p :: rest => do
    let rest ← nestFrom extra rest
    return p :: rest

/-- The pieces with every clause in a scope of its own. -/
def nest (pieces : List Piece) : Except Failure (List Piece) := nestFrom [] pieces

end CheatScript.Scope
