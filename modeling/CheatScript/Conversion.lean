import CheatScript.CodeFile
import CheatScript.Path
import CheatScript.Text.Quoted

/-!
# Conversion of code files

Turns the code lines of a file into patch lines or the other way round. Lines that are neither are
copied. A line that starts like a patch line and is none becomes an error comment.
-/

namespace CheatScript

/-- What a line of a code file is. -/
inductive LineKind
  /-- Neither a code line nor a patch line. -/
  | other
  /-- A code line. -/
  | code
  /-- A patch line. -/
  | patch
  /-- A line that starts like a patch line and is none. -/
  | badPatch
  deriving DecidableEq, Repr

namespace LineKind

/-- Whether a line starts like a patch line. -/
def startsPatch (s : Bytes) : Bool := match Bytes.afterFolded? (ascii "patch") s with
  | some rest => (rest.dropWhile Byte.isGap).head? == some Byte.equals
  | none => false

/-- The kind of a line; blanks around it do not count. -/
def ofLine (line : Bytes) : LineKind :=
  let s := Space.trim line
  if CodeFile.isCodeLine s then .code
  else if startsPatch s then (if (Patch.pair? s).isSome then .patch else .badPatch)
  else .other

end LineKind

/-- The way a code file is converted. -/
inductive ConversionWay
  /-- Decided by the lines of the file. -/
  | auto
  /-- From code lines to patch lines. -/
  | toPatches
  /-- From patch lines to code lines. -/
  | toCodes
  deriving DecidableEq, Repr

/-- What became of a line. -/
inductive LineOutcome
  /-- It was converted. -/
  | converted (text : Bytes)
  /-- It was copied. -/
  | copied (text : Bytes)
  /-- It is malformed and was replaced by a comment. -/
  | malformed (text : Bytes)
  deriving DecidableEq, Repr

/-- The line that is written. -/
def LineOutcome.text : LineOutcome → Bytes
  | .converted s => s
  | .copied s => s
  | .malformed s => s

/-- How many lines were converted, copied and malformed. -/
structure Tally where
  /-- Converted lines. -/
  converted : Nat := 0
  /-- Copied lines. -/
  copied : Nat := 0
  /-- Malformed lines. -/
  errors : Nat := 0
  deriving DecidableEq, Repr

namespace Tally

/-- Counts one more line. -/
def add (t : Tally) : LineOutcome → Tally
  | .converted _ => { t with converted := t.converted + 1 }
  | .copied _ => { t with copied := t.copied + 1 }
  | .malformed _ => { t with errors := t.errors + 1 }

end Tally

namespace ConversionWay

/-- The way that a word asks for. -/
def ofWord? (word : Bytes) : Option ConversionWay :=
  let word := Bytes.lower word
  if word.isEmpty || word = ascii "auto" then some .auto
  else if word = ascii "pnach" then some .toPatches
  else if word = ascii "raw" then some .toCodes
  else none

/-- The complaint about a word that asks for no way. -/
def complaint (word : Bytes) : Bytes :=
  ascii "unknown direction " ++ Quoted.quote word ++ ascii " (want auto, pnach or raw)"

/-- The way for the lines of a file: any line that is or starts like a patch line makes it a patch
file. -/
def detect (lines : List Bytes) : ConversionWay :=
  if lines.any fun l => LineKind.ofLine l == .patch || LineKind.ofLine l == .badPatch then .toCodes
  else .toPatches

/-- The way for the lines of a file when it is left open. -/
def resolve (way : ConversionWay) (lines : List Bytes) : ConversionWay := match way with
  | .auto => detect lines
  | way => way

/-- The path of the output next to the input. -/
def outputPath (way : ConversionWay) (input : Bytes) : Bytes :=
  let stem := Bytes.dropTail (Path.extension input) input
  match way with
  | .toCodes => stem ++ ascii "-raw.txt"
  | _ => stem ++ ascii ".pnach"

end ConversionWay

namespace Conversion

/-- Converts one line. While the way is left open every line is copied. -/
def line (way : ConversionWay) (text : Bytes) : LineOutcome :=
  let bare := Bytes.dropTail [Byte.carriage] text
  let trimmed := Space.trim bare
  match way, LineKind.ofLine trimmed with
  | .toPatches, .code => .converted (Patch.ofCodes (trimmed.map Byte.toUpper))
  | .toCodes, .patch => match Patch.pair? trimmed with
    | some (left, right) => .converted (left ++ Byte.space :: right)
    | none => .copied bare
  | .toCodes, .badPatch => .malformed (ascii "// ERROR: malformed patch line: " ++ trimmed)
  | _, _ => .copied bare

/-- The lines of a file; one newline at its end does not count. -/
def linesOf (input : Bytes) : List Bytes :=
  Bytes.split Byte.newline (Bytes.dropTail [Byte.newline] input)

/-- What becomes of the lines of a file. -/
def outcomes (way : ConversionWay) (input : Bytes) : List LineOutcome :=
  (linesOf input).map (line way)

/-- The converted file. A title goes in front of patch lines. -/
def text (way : ConversionWay) (title input : Bytes) : Bytes :=
  let heading := if way = .toPatches && !title.isEmpty then
    [ascii "gametitle=" ++ title, []] else []
  Bytes.join [Byte.newline] (heading ++ (outcomes way input).map (·.text)) ++ [Byte.newline]

/-- How many lines of a file are converted, copied and malformed. -/
def tally (way : ConversionWay) (input : Bytes) : Tally := (outcomes way input).foldl Tally.add {}

end Conversion

end CheatScript
