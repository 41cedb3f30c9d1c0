import CheatScript.Path
import CheatScript.Text.Numeral

/-!
# Settings

What can be set in a settings file, in the environment or on the command line.
-/

namespace CheatScript

/-- The settings of the compiler. -/
structure Settings where
  /-- Whether codes are written as patch lines. -/
  pnach : Bool := false
  /-- Whether conditions are written as type D. -/
  dtype : Bool := false
  /-- What the name of an output file ends with. -/
  outputSuffix : Bytes := ascii "-Output.txt"
  /-- Whether the codes go to the clipboard. -/
  clipboard : Bool := false
  /-- When diagnostics are coloured. -/
  color : Bytes := ascii "auto"
  /-- Whether every stage is logged. -/
  verbose : Bool := false
  /-- Whether a listing is printed. -/
  listing : Bool := false
  /-- The log file; none if empty. -/
  logFile : Bytes := []
  /-- The size in megabytes at which the log file is put aside. -/
  logMaxSizeMB : Int := 10
  /-- The number of old log files that are kept. -/
  logMaxBackups : Int := 3
  deriving DecidableEq, Repr

/-- A setting and the way it is replaced. -/
inductive Setting
  /-- A switch. -/
  | switch (set : Bool → Settings → Settings)
  /-- A text. -/
  | text (set : Bytes → Settings → Settings)
  /-- A whole number. -/
  | number (set : Int → Settings → Settings)

/-- A setting that a file can give. -/
structure SettingField where
  /-- The name of the setting in a file. -/
  name : Bytes
  /-- The name of the setting in a report. -/
  title : Bytes
  /-- The setting. -/
  setting : Setting

namespace Settings

/-- The settings a file can give, in the order in which they are checked. -/
def fields : List SettingField :=
  [⟨ascii "pnach", ascii "Pnach", .switch fun v s => { s with pnach := v }⟩,
   ⟨ascii "dtype", ascii "DType", .switch fun v s => { s with dtype := v }⟩,
   ⟨ascii "output_suffix", ascii "OutputSuffix", .text fun v s => { s with outputSuffix := v }⟩,
   ⟨ascii "clipboard", ascii "Clipboard", .switch fun v s => { s with clipboard := v }⟩,
   ⟨ascii "color", ascii "Color", .text fun v s => { s with color := v }⟩,
   ⟨ascii "verbose", ascii "Verbose", .switch fun v s => { s with verbose := v }⟩,
   ⟨ascii "listing", ascii "Listing", .switch fun v s => { s with listing := v }⟩,
   ⟨ascii "log_file", ascii "LogFile", .text fun v s => { s with logFile := v }⟩,
   ⟨ascii "log_max_size_mb", ascii "LogMaxSizeMB", .number fun v s => { s with logMaxSizeMB := v }⟩,
   ⟨ascii "log_max_backups", ascii "LogMaxBackups",
     .number fun v s => { s with logMaxBackups := v }⟩]

/-- The path of the output next to the input: the name of the input without its extension, and the
suffix. -/
def outputPath (input suffix : Bytes) : Bytes :=
  let base := Path.base input
  Path.join (Path.folder input) (Bytes.dropTail (Path.extension base) base ++ suffix)

end Settings

end CheatScript
