import CondRegions.Diagnostic
import CondRegions.Files.Host
import CondRegions.Options

/-!
# Loading options

An options file is read whole before its kind is looked at. The extension of its path says what it
holds: `json` is JSON, `yaml` and `yml` are YAML, and nothing else is accepted.
-/

namespace CondRegions

/-- The diagnostic of a file of the configuration that cannot be read. -/
def Diagnostic.unreadable (phase path : String) (e : FileError) : Diagnostic :=
  .unplaced phase (.invalidPath (path ++ " (" ++ e.message ++ ")"))

namespace Options

/-- What is reported of a file that does not hold options. -/
def malformedReason : String := "not a valid options file"

/-- The diagnostic of an options file that cannot be used. -/
def refusal (path reason : String) : Diagnostic :=
  .unplaced "config" (.invalidConfig (path ++ ": " ++ reason))

/-- **Options of a text.** How the text of a file is read, by its extension. -/
def ofText (path text : String) : Except Diagnostic Options :=
  let orRefused : Option Options → Except Diagnostic Options
    | some o => .ok o
    | none => .error (refusal path malformedReason)
  match Path.extension path with
  | "json" => orRefused (ofJson? text)
  | "yaml" | "yml" => orRefused (ofYaml? text)
  | ext => .error (refusal path
      ("unsupported options file extension `" ++ ext ++ "`, expected json, yaml or yml"))

variable {m : Type → Type} [Monad m]

/-- The options of a file. -/
def load (host : Host m) (path : String) : m (Except Diagnostic Options) := do
  match ← host.readText path with
  | .error e => return .error (.unreadable "config" path e)
  | .ok text => return ofText path text

/-- The options of a file, if one is given; otherwise no options. -/
def load? (host : Host m) : Option String → m (Except Diagnostic Options)
  | some path => load host path
  | none => return .ok empty

end Options

end CondRegions
