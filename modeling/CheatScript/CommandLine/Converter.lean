import CheatScript.CommandLine.Console
import CheatScript.CommandLine.Flag
import CheatScript.Conversion

/-!
# The converter command

Converts a code file between code lines and patch lines.
-/

namespace CheatScript.ConverterCommand

/-- The flags of the command. -/
def flags : List FlagSpec :=
  [{ name := ascii "o" }, { name := ascii "stats", isSwitch := true }, { name := ascii "title" },
   { name := ascii "to" }]

/-- The text that explains the command. -/
def usage : Bytes :=
  ascii "Usage: pnachconv [options] input\n\n"
    ++ ascii "Converts raw PS2 code pairs to pnach patch lines and back.\n\nOptions:\n"
    ++ ascii "  -o string\n    \tOutput file (default: input.pnach or input-raw.txt)\n"
    ++ ascii "  -stats\n    \tPrint conversion statistics\n"
    ++ ascii "  -title string\n    \tgametitle line for pnach output\n"
    ++ ascii "  -to string\n    \tConversion direction: auto, pnach or raw (default \"auto\")\n"
    ++ ascii "\nExamples:\n"
    ++ ascii "  pnachconv cheats-Output.txt\n"
    ++ ascii "  pnachconv -to raw -o codes.txt SLUS-20312.pnach\n"
    ++ ascii "  pnachconv -title \"Jak and Daxter\" codes.txt\n"

/-- What is asked of the command. -/
structure Request where
  /-- The code file. -/
  input : Bytes
  /-- The output; empty for the one next to the input. -/
  output : Bytes
  /-- The word for the way of the conversion. -/
  way : Bytes
  /-- The title line. -/
  title : Bytes
  /-- Whether statistics are printed. -/
  stats : Bool

/-- The last text given for a flag. -/
def textOf (given : List GivenFlag) (name fallback : Bytes) : Bytes :=
  match Flag.given? given { name := name } with
  | some (.text s) => s
  | _ => fallback

/-- The request of flags and an input. -/
def Request.ofFlags (given : List GivenFlag) (input : Bytes) : Request where
  input := input
  output := textOf given (ascii "o") []
  way := textOf given (ascii "to") (ascii "auto")
  title := textOf given (ascii "title") []
  stats := Flag.given? given { name := ascii "stats" } == some (.switch true)

/-- The statistics of a conversion. -/
def statistics (input output : Bytes) (t : Tally) : Bytes :=
  ascii "Input:     " ++ input ++ ascii "\nOutput:    " ++ output
    ++ ascii "\nConverted: " ++ Decimal.natural t.converted ++ ascii " lines"
    ++ ascii "\nCopied:    " ++ Decimal.natural t.copied ++ ascii " lines\n"
    ++ (if t.errors = 0 then []
      else ascii "Errors:    " ++ Decimal.natural t.errors
        ++ ascii " (search for '// ERROR:' in output)\n")

/-- Converts a file. A failure is the complaint for the standard error stream. -/
def convert (r : Request) : Action Unit := do
  match ConversionWay.ofWord? r.way with
  | none => Action.fail (ascii "error: " ++ ConversionWay.complaint r.way ++ [Byte.newline])
  | some way => do
    let data ← fun c => match Action.explained (ascii "error: ") (Action.read r.input) c with
      | (.error e, c) => (.error (e ++ [Byte.newline]), c)
      | (.ok data, c) => (.ok data, c)
    let way := way.resolve (Bytes.split Byte.newline data)
    let output := if r.output.isEmpty then way.outputPath r.input else r.output
    let tally := Conversion.tally way data
    (fun c => match Action.write output (Conversion.text way r.title data) c with
      | (.error e, c) =>
        (.error (ascii "error writing " ++ output ++ ascii ": " ++ e ++ [Byte.newline]), c)
      | (.ok (), c) => (.ok (), c) : Action Unit)
    if r.stats then Action.print (statistics r.input output tally)
    if tally.errors = 0 then return ()
    else Action.fail (Decimal.natural tally.errors
      ++ ascii " malformed patch line(s), search for '// ERROR:' in " ++ output ++ [Byte.newline])

/-- Runs the converter command; gives its exit status and the console after it. -/
def run (args : List Bytes) (console : Console) : Nat × Console :=
  let complain (status : Nat) (text : Bytes) (c : Console) : Nat × Console :=
    (status, { c with stderr := c.stderr ++ text })
  match Flag.read flags args with
  | .error .help => complain 0 usage console
  | .error e => complain 2 (e.message ++ Byte.newline :: usage) console
  | .ok (given, [input]) => match convert (.ofFlags given input) console with
    | (.ok (), c) => (0, c)
    | (.error text, c) => complain 1 text c
  | .ok _ => complain 1 usage console

end CheatScript.ConverterCommand
