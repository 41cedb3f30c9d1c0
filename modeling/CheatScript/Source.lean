import CheatScript.Command
import CheatScript.Text.Space

/-!
# Source texts

A source file is cleaned before it is split into commands: tabs go, block comments go first and line
comments after them, and every line is trimmed. Comment marks inside a string literal mean nothing.
A block comment leaves its newlines behind, so a line keeps its index and a diagnostic can name it.
-/

namespace CheatScript.Source

/-! ## Comments -/

/-- The number of bytes of a string literal after its opening quote: escaped bytes and bytes other
than a quote, then the closing quote if there is one. A backslash escapes any byte, a newline only
if `newlines` says so. -/
def literalRest (newlines : Bool) : Bytes → Nat
  | [] => 0
  | [_] => 1
  | c :: d :: s =>
    if c = Byte.backslash && (newlines || d != Byte.newline) then literalRest newlines s + 2
    else if c = Byte.quote then 1
    else literalRest newlines (d :: s) + 1

/-- The number of bytes of a block comment after its opening mark, up to the closing mark or to the
end of the text. -/
def blockRest : Bytes → Nat
  | [] => 0
  | [_] => 1
  | c :: d :: s => if c = Byte.star && d = Byte.slash then 2 else blockRest (d :: s) + 1

/-- A string literal, kept, or a block comment, of which the newlines are kept. -/
def blockComment? : Bytes → Option (Nat × Bytes)
  | [] => none
  | c :: s =>
    if c = Byte.quote then
      let n := literalRest true s + 1
      some (n, (c :: s).take n)
    else if c = Byte.slash && s.head? = some Byte.star then
      let n := blockRest s.tail + 2
      some (n, ((c :: s).take n).filter (· == Byte.newline))
    else none

/-- A string literal, kept, or a line comment with the newline that ends it, of which the newline is
kept. -/
def lineComment? : Bytes → Option (Nat × Bytes)
  | [] => none
  | c :: s =>
    if c = Byte.quote then
      let n := literalRest false s + 1
      some (n, (c :: s).take n)
    else if c = Byte.slash && s.head? = some Byte.slash then
      let n := (s.takeWhile (· != Byte.newline)).length + 1
      match s.dropWhile (· != Byte.newline) with
      | [] => some (n, [])
      | _ :: _ => some (n + 1, [Byte.newline])
    else none

/-- The text without comments. -/
def stripComments (s : Bytes) : Bytes := Bytes.edit lineComment? (Bytes.edit blockComment? s)

/-! ## Lines -/

/-- The lines without tabs, comments and surrounding white space. There are as many lines as before,
but at least one. -/
def cleanUp (lines : List Bytes) : List Bytes :=
  let text := (Bytes.join [Byte.newline] lines).filter (· != Byte.tab)
  (Bytes.split Byte.newline (stripComments text)).map Space.trim

/-- The commands of the lines of a file that are not empty, each with its own line as its origin. -/
def commands (file : Bytes) (lines : List Bytes) : List Command :=
  lines.zipIdx.filterMap fun (line, i) =>
    if line.isEmpty then none
    else some { Command.ofLine line with trace := [{ file := file, line := line, index := i }] }

/-- The lines of a file's content, without their ends. A byte order mark in front and one newline at
the end do not count; an empty content has no lines. -/
def linesOf (content : Bytes) : List Bytes :=
  let text := Bytes.dropTail [Byte.newline] (Bytes.dropLead [0xEF, 0xBB, 0xBF] content)
  if text.isEmpty then []
  else (Bytes.split Byte.newline text).map (Bytes.dropTail [Byte.carriage])

end CheatScript.Source
