import CheatScript.FileTree
import CheatScript.Settings.Lua
import CheatScript.Settings.Toml

/-!
# Settings files

The extension of a settings file tells its format.
-/

namespace CheatScript

/-- Why a settings file cannot be used. -/
inductive SettingsError
  /-- The extension is that of no format. -/
  | format
  /-- A TOML file cannot be read. -/
  | tomlFile (e : FileError)
  /-- A TOML file is wrong. -/
  | toml (e : Toml.Error)
  /-- A Lua script cannot be read. -/
  | luaFile (e : FileError)
  /-- A Lua script is wrong. -/
  | lua (p : Lua.Problem)
  deriving DecidableEq, Repr

/-- The text of an error with the settings file with a path. -/
def SettingsError.message (path : Bytes) : SettingsError → Bytes
  | .format =>
    ascii "config " ++ path ++ ascii ": unsupported format (want .toml or .lua)"
  | .tomlFile e => e.readMessage path
  | .toml e => path ++ ascii ", " ++ e.explanation
  | .luaFile e => ascii "config " ++ path ++ ascii ": " ++ e.readMessage path
  | .lua p => ascii "config " ++ path ++ ascii ": " ++ p.explanation

/-- The settings with those of the file with a path in their place. -/
def Settings.load (files : FileTree) (s : Settings) (path : Bytes) :
    Except SettingsError Settings :=
  let extension := Bytes.lower (Path.extension path)
  if extension = ascii ".toml" then match files.read path with
    | .error e => .error (.tomlFile e)
    | .ok content => (Toml.load s content).mapError .toml
  else if extension = ascii ".lua" then match files.read path with
    | .error e => .error (.luaFile e)
    | .ok content => (Lua.load s content).mapError .lua
  else .error .format

end CheatScript
