import CheatScript.Journal
import CheatScript.Statement

/-!
# Rendering

The flattened commands of a script become pieces: conditions that open a scope, ends of scopes, and
fragments of codes. The lines between `ASM_START` and `ASM_END` are assembled as a whole.
-/

namespace CheatScript

/-- A piece of the compiled script. -/
inductive Piece
  /-- Opens a scope that depends on a condition. -/
  | test (command : Command) (condition : Condition)
  /-- Closes the last open scope. -/
  | close
  /-- Codes and texts. -/
  | output (command : Command) (fragment : Fragment)
  deriving DecidableEq, Repr

/-- The number of lines a piece counts for. -/
def Piece.weight : Piece → Nat
  | .test _ _ => 1
  | .close => 0
  | .output _ f => f.weight

/-- An asm scope that is not closed yet. -/
structure AsmScope where
  /-- The command that opened it. -/
  start : Command
  /-- The code of its first word: the address with the type of a 32-bit write in front. -/
  place : Word
  /-- Its lines so far. -/
  lines : List Command := []

namespace AsmScope

/-- Opens a scope at the address of a command. -/
def ofCommand (c : Command) : Except Fault AsmScope := do
  let address ← Statement.last (← Argument.address c.args)
  return { start := c, place := 0x20000000#32 ||| (address &&& 0x0FFFFFFF#32) }

/-- Adds a line. -/
def add (s : AsmScope) (c : Command) : AsmScope := { s with lines := s.lines ++ [c] }

/-- The last line. -/
def last (s : AsmScope) : Command := s.lines.getLast?.getD s.start

/-- Assembles the scope that a command closes. -/
def close (t : DefinitionTable) (s : AsmScope) (c : Command) : Stage (List Code) :=
  if c.args.isEmpty then do
    let outcome := Assembly.assemble t s.place s.lines
    let words ← Stage.ofResult outcome.words
    Stage.note (.assembled outcome.listing)
    return Code.ofWords s.place words
  else Stage.ofResult (c.refuse .wrongSyntax)

end AsmScope

/-- The pieces of a list of commands, under the encoding chosen before them and in the asm scope
that is open. -/
def renderFrom [TextEncoder] (t : DefinitionTable) : TextEncoding → Option AsmScope →
    List Command → Stage (List Piece)
  | _, none, [] => return []
  | _, some s, [] => Stage.ofResult (s.last.refuse .missAsmEnd)
  | e, some s, c :: cmds =>
    if c.name = ascii "ASM_END" then do
      let codes ← s.close t c
      let pieces ← renderFrom t e none cmds
      return .output c (.codes codes) :: pieces
    else renderFrom t e (some (s.add c)) cmds
  | e, none, c :: cmds =>
    if c.name = ascii "ASM_START" then do
      let s ← Stage.ofResult (c.blame (AsmScope.ofCommand c))
      renderFrom t e (some s) cmds
    else do
      match ← Stage.ofResult (Statement.ofCommand e c) with
      | .encoding e => renderFrom t e none cmds
      | .emit f =>
        let pieces ← renderFrom t e none cmds
        return .output c f :: pieces
      | .openIf condition =>
        let pieces ← renderFrom t e none cmds
        return .test c condition :: pieces
      | .closeIf =>
        let pieces ← renderFrom t e none cmds
        return .close :: pieces

/-- The pieces of a script. Strings are stored as UTF-8 unless a command says otherwise. -/
def render [TextEncoder] (t : DefinitionTable) (cmds : List Command) : Stage (List Piece) :=
  renderFrom t .utf8 none cmds

end CheatScript
