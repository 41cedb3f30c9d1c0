import CheatScript.CodeFile
import CheatScript.CommandLine.Console
import CheatScript.CommandLine.Flag
import CheatScript.CommandLine.Table
import CheatScript.Compile
import CheatScript.Settings.File

/-!
# The compiler command

Compiles scripts to code files, and disassembles code files. Settings come from a settings file, the
environment and the flags, in rising order of precedence.
-/

namespace CheatScript.CompilerCommand

/-- The name of the program in its output. -/
def title : Bytes := ascii "CLPS2C-Compiler v1.2.0"

/-- The text for the version flag. -/
def versionText : Bytes := ascii "clps2c version 1.2.0\n"

/-- What a command knows of its surroundings. -/
structure Host where
  /-- The variables of the environment. -/
  environment : List (Bytes × Bytes) := []
  /-- Whether the standard error stream is a terminal. -/
  isTerminal : Bool := false
  /-- The current date and time as text. -/
  stamp : Bytes
  /-- The text of the time that a compilation took. -/
  took : Bytes

/-! ## Flags -/

/-- A text flag with a variable of the environment. -/
def textFlag (name : String) (variableName : String) : FlagSpec :=
  { name := ascii name, variableName := some (ascii variableName) }

/-- A switch with a variable of the environment. -/
def switchFlag (name : String) (short : Option Bytes) (variableName : String) : FlagSpec :=
  { name := ascii name, short := short, isSwitch := true,
    variableName := some (ascii variableName) }

/-- The flags of a compilation. -/
def compileFlags : List FlagSpec :=
  [{ name := ascii "input", short := some (ascii "i") },
   { name := ascii "output", short := some (ascii "o") },
   switchFlag "pnach" (some (ascii "p")) "CLPS2C_PNACH",
   switchFlag "dtype" (some (ascii "d")) "CLPS2C_DTYPE",
   textFlag "output-suffix" "CLPS2C_OUTPUT_SUFFIX",
   switchFlag "clipboard" none "CLPS2C_CLIPBOARD",
   switchFlag "listing" none "CLPS2C_LISTING"]

/-- The flag for help, which every command has. -/
def helpFlag : FlagSpec := { name := ascii "help", short := some (ascii "h"), isSwitch := true }

/-- The flags before a sub-command. -/
def mainFlags : List FlagSpec :=
  compileFlags ++
  [textFlag "config" "CLPS2C_CONFIG",
   switchFlag "verbose" none "CLPS2C_VERBOSE",
   textFlag "log-file" "CLPS2C_LOG_FILE",
   textFlag "color" "CLPS2C_COLOR",
   helpFlag,
   { name := ascii "version", short := some (ascii "v"), isSwitch := true }]

/-- The values of flags by name. -/
abbrev Flags := List (Bytes × FlagValue)

/-- Reads the flags of a command. -/
def readFlags (host : Host) (specs : List FlagSpec) (args : List Bytes) :
    Except FlagError (Flags × List Bytes) := do
  let (given, rest) ← Flag.read specs args
  let flags ← Flag.resolve specs host.environment given
  return (flags, rest)

/-- Whether a switch is on. -/
def isOn (flags : Flags) (name : String) : Bool := (Flag.switch? flags (ascii name)).getD false

/-- The text of a flag; empty if it is not set. -/
def textOf (flags : Flags) (name : String) : Bytes := (Flag.text? flags (ascii name)).getD []

/-- The settings with those of the flags in their place. -/
def applyFlags (flags : Flags) (s : Settings) : Settings :=
  let switch (name : String) (before : Bool) := (Flag.switch? flags (ascii name)).getD before
  let text (name : String) (before : Bytes) := (Flag.text? flags (ascii name)).getD before
  { s with
    pnach := switch "pnach" s.pnach
    dtype := switch "dtype" s.dtype
    clipboard := switch "clipboard" s.clipboard
    verbose := switch "verbose" s.verbose
    listing := switch "listing" s.listing
    outputSuffix := text "output-suffix" s.outputSuffix
    color := text "color" s.color
    logFile := text "log-file" s.logFile }

/-! ## Output -/

/-- A text in colour, if colours are on. -/
def colored (on : Bool) (code : String) (s : Bytes) : Bytes :=
  if on then 0x1B :: ascii "[" ++ ascii code ++ ascii "m" ++ s ++ 0x1B :: ascii "[0m" else s

/-- Whether diagnostics are coloured; none for a word that says nothing about it. -/
def colors? (word : Bytes) (isTerminal : Bool) : Option Bool :=
  if word = ascii "auto" then some isTerminal
  else if word = ascii "always" then some true
  else if word = ascii "never" then some false
  else none

/-- How a command logs and prints, once the settings are known. -/
structure Session where
  /-- The surroundings. -/
  host : Host
  /-- The settings. -/
  settings : Settings
  /-- Whether diagnostics are coloured. -/
  colors : Bool

/-- The number of bytes a log file may have: its megabytes as a signed number of 64 bits, and a
hundred megabytes if none are asked for. -/
def logLimit (s : Settings) : Int :=
  (if s.logMaxSizeMB = 0 then 100 * 0x100000 else s.logMaxSizeMB * 0x100000).bmod
    0x10000000000000000

/-- Logs a line: to the log file with a stamp, else to the standard error stream. A log file without
room takes no line. -/
def log (s : Session) (line : Bytes) : Action Unit :=
  if s.settings.logFile.isEmpty then Action.complain (line ++ [Byte.newline])
  else if logLimit s.settings ≤ 0 then return ()
  else Action.log s.settings.logFile (s.host.stamp ++ ascii " " ++ line ++ [Byte.newline])

/-- Logs a line if every stage is logged. -/
def trace (s : Session) (line : Bytes) : Action Unit :=
  if s.settings.verbose then log s line else return ()

/-- The lines that introduce the program. -/
def introduction (colors : Bool) : Bytes :=
  colored colors "95;1" (title ++ [Byte.newline])
    ++ ascii "Compiles CLPS2C scripts into PS2 raw and pnach cheat codes.\n"
    ++ ascii "(c) 2024 - 2026 Zayn Otley\n"
    ++ ascii "License: GPLv3 or later\n"

/-- Shows a report with its label in colour. -/
def showReport (s : Session) (report : Bytes) : Action Unit :=
  Action.complain (colored s.colors "31;1" (ascii "ERROR: ")
    ++ Bytes.dropLead (ascii "ERROR: ") report ++ [Byte.newline])

/-- The listing of a compilation as a table. -/
def listingTable (listing : List Assembly.ListingLine) : Bytes :=
  Table.text (["Address", "Word", "Source"].map ascii)
    (listing.map fun l => [Hex.word l.address, Hex.word l.word, l.source])

/-- Prints the listing of a compilation. -/
def printListing (s : Session) (input : Bytes) (listing : List Assembly.ListingLine) :
    Action Unit :=
  if listing.isEmpty then trace s (input ++ ascii ": no asm scopes to list")
  else Action.print (input ++ ascii ":\n" ++ listingTable listing)

/-! ## Compilation -/

/-- The form of the output that settings ask for. -/
def formOf (s : Settings) : OutputForm :=
  { conditions := if s.dtype then .d else .e, patches := s.pnach }

/-- The files as a script finds them that includes the log file: the notes of what happened before
that are in it already. -/
def filesSeen (s : Session) (journal : Journal) : Action FileTree := fun c =>
  let isLog (e : Event) : Bool := e.file?.any (c.files.samePlace s.settings.logFile)
  let before : Journal := journal.takeWhile (!isLog ·)
  (.ok (before.notes.forM (trace s) c).2.files, c)

/-- Compiles the content of a script and logs what happens. -/
def compileContent (s : Session) (form : OutputForm) (input content : Bytes) :
    Action (Stage Bytes) := do
  let stage := Compile.content (← Action.files) form input content
  let stage ←
    if s.settings.verbose && !s.settings.logFile.isEmpty then do
      let seen ← filesSeen s stage.journal
      pure (Compile.content seen form input content)
    else pure stage
  stage.journal.notes.forM (trace s)
  return stage

/-- Compiles a script to a file; without a path, to the one next to the script. The report of a
failure goes to the file in place of the codes. -/
def compileFile (s : Session) (settings : Settings) (input output : Bytes) : Action Unit := do
  let output := if output.isEmpty then Settings.outputPath input settings.outputSuffix else output
  let content ← Action.explained (ascii "reading " ++ input ++ ascii ": ") (Action.read input)
  let stage ← compileContent s (formOf settings) input content
  let writing := Action.explained (ascii "writing " ++ output ++ ascii ": ")
  match stage.result with
  | .error f =>
    writing (Action.write output (title ++ ascii " " ++ s.host.stamp ++ ascii "\n\n" ++ f.report))
    showReport s f.report
    Action.fail (ascii "compile failed")
  | .ok codes =>
    writing (Action.write output codes)
    trace s (ascii "wrote " ++ output ++ ascii ": " ++ Decimal.natural (CodeFile.lineCount codes)
      ++ ascii " code lines in " ++ s.host.took)
    if settings.listing then printListing s input stage.journal.listing
    if settings.clipboard then log s (ascii "warning: clipboard unavailable")

/-- Compiles several scripts. -/
def compileAll (s : Session) (settings : Settings) (inputs : List Bytes) : Action Unit := do
  if settings.clipboard then
    log s (ascii "warning: --clipboard ignored when compiling " ++ Decimal.natural inputs.length
      ++ ascii " files")
  inputs.forM fun input => compileFile s { settings with clipboard := false } input []

/-- The scripts that a command names. -/
def inputsOf (flags : Flags) (args : List Bytes) : List Bytes :=
  let named := textOf flags "input"
  if named.isEmpty then args else named :: args

/-- Compiles the scripts that a command names. -/
def compile (s : Session) (flags : Flags) (args : List Bytes) : Action Unit :=
  let settings := applyFlags flags s.settings
  let output := textOf flags "output"
  match inputsOf flags args with
  | [] => Action.fail (ascii "no input file: pass one with -i or as an argument")
  | [input] => compileFile s settings input output
  | inputs =>
    if output.isEmpty then compileAll s settings inputs
    else Action.fail (ascii "-o needs exactly one input file")

/-- Compiles one script that the command names. -/
def watch (s : Session) (flags : Flags) (args : List Bytes) : Action Unit :=
  match inputsOf flags args with
  | [input] => compileFile s (applyFlags flags s.settings) input (textOf flags "output")
  | _ => Action.fail (ascii "watch needs exactly one input file")

/-! ## Disassembly -/

/-- The instructions of a code file as a table. -/
def rowsTable (rows : List CodeFile.Row) : Bytes :=
  Table.text (["Address", "Word", "Instruction"].map ascii)
    (rows.map fun r => [Hex.word r.address, Hex.word r.word, r.text])

/-- Disassembles the 32-bit writes of a code file. -/
def disassemble (s : Session) (args : List Bytes) : Action Unit := match args with
  | [path] => do
    let content ← Action.read path
    let rows := CodeFile.rows content
    trace s (path ++ ascii ": " ++ Decimal.natural rows.length ++ ascii " instructions, "
      ++ Decimal.natural (CodeFile.skipped content) ++ ascii " other lines skipped")
    Action.print (rowsTable rows)
  | _ => Action.fail (ascii "disasm needs exactly one codes file")

/-! ## Files -/

/-- The paths that the flags and arguments of a command name, and the paths it writes to. -/
def pathsOf (settings : Settings) (flags : Flags) (args : List Bytes) : List Bytes :=
  let inputs := inputsOf flags args
  textOf flags "output" :: inputs
    ++ inputs.map (Settings.outputPath · (applyFlags flags settings).outputSuffix)

/-- The paths of the files that a command may read or write besides those of includes, as far as
they are known with the files there are. -/
def namedPaths (host : Host) (files : FileTree) (args : List Bytes) : List Bytes :=
  match readFlags host mainFlags args with
  | .error _ => []
  | .ok (flags, rest) =>
    let config := textOf flags "config"
    let settings := applyFlags flags ((Settings.load files {} config).toOption.getD {})
    let own := match readFlags host (helpFlag :: compileFlags) (rest.drop 1) with
      | .ok (own, args) => pathsOf settings own args
      | .error _ => []
    (config :: settings.logFile :: pathsOf settings flags rest ++ own).filter (!·.isEmpty)

/-! ## The command -/

/-- The session for the flags before a sub-command. -/
def openSession (host : Host) (flags : Flags) : Action Session := do
  let path := textOf flags "config"
  let settings ←
    if path.isEmpty then pure {}
    else Action.ofExcept (·.message path) (Settings.load (← Action.files) {} path)
  let settings := applyFlags flags settings
  match colors? settings.color host.isTerminal with
  | none => Action.fail (ascii "invalid color mode " ++ Quoted.quote settings.color
      ++ ascii " (want auto, always or never)")
  | some colors => do
    if settings.verbose then Action.complain (introduction colors)
    return ⟨host, settings, colors⟩

/-- The text for the help flag. -/
def usage : Bytes := ascii "Usage: clps2c [flags] [compile | watch | disasm] [flags] [file...]\n"

/-- Reads the flags of a sub-command and runs it. Values of flags that only the main command has are
kept. -/
def subcommand (host : Host) (flags : Flags) (specs : List FlagSpec) (args : List Bytes)
    (run : Flags → List Bytes → Action Unit) : Action Unit := do
  let (own, rest) ← Action.ofExcept FlagError.message (readFlags host (helpFlag :: specs) args)
  if isOn own "help" then Action.print usage
  else
    let shared := flags.filter fun (name, _) => !specs.any (·.name == name)
    run (own ++ shared) rest

/-- Runs the compiler command. -/
def run (host : Host) (args : List Bytes) : Action Unit := do
  let (flags, rest) ← Action.ofExcept FlagError.message (readFlags host mainFlags args)
  if isOn flags "help" then Action.print usage
  else if isOn flags "version" then Action.print versionText
  else do
    let s ← openSession host flags
    match rest with
    | [] => compile s flags []
    | name :: others =>
      if name = ascii "compile" then subcommand host flags compileFlags others (compile s)
      else if name = ascii "watch" then subcommand host flags compileFlags others (watch s)
      else if name = ascii "disasm" then
        subcommand host flags [] others fun _ args => disassemble s args
      else if name = ascii "help" || name = ascii "h" then Action.print usage
      else compile s flags rest

end CheatScript.CompilerCommand
