import CheatScript.Code

/-!
# Fragments

What one command contributes to the compiled codes. Its weight is the number of lines a condition in
front of it has to skip. Raw text that is not put on a line of its own weighs nothing.
-/

namespace CheatScript

/-- The contribution of a command. -/
inductive Fragment
  /-- Codes, each on lines of its own. -/
  | codes (list : List Code)
  /-- Text that continues the line before it. -/
  | inline (text : Bytes)
  /-- Text that starts on a line of its own. -/
  | block (text : Bytes)
  deriving DecidableEq, Repr

namespace Fragment

/-- The text of lines, each after a newline. -/
def linesText (lines : List CodeLine) : Bytes := lines.flatMap fun l => Byte.newline :: l.text

/-- The text of a fragment. -/
def text : Fragment → Bytes
  | .codes list => linesText (list.flatMap Code.lines)
  | .inline s => s
  | .block s => Byte.newline :: s

/-- The number of lines a fragment counts for. -/
def weight : Fragment → Nat
  | .codes list => (list.flatMap Code.lines).length
  | .inline _ => 0
  | .block s => List.count Byte.newline s + 1

end Fragment

/-- The texts one after the other; the newline in front of the first one that is not empty goes. -/
def joinTexts : List Bytes → Bytes
  | [] => []
  | s :: rest =>
    if s.isEmpty then joinTexts rest else Bytes.dropLead [Byte.newline] s ++ rest.flatten

end CheatScript
