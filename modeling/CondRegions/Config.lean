import CondRegions.Define
import CondRegions.EnvFile
import CondRegions.Glob
import CondRegions.OptionsFile

/-!
# Configuration

A configuration says which files are transformed and what their conditions can read. Its definitions
come in layers, each over the one before:

1. the env files of the mode, from `.env` to `.env.<mode>.local`;
2. the environment of the process, if it is asked for;
3. the options file, its `env` map over its other keys;
4. the definitions given by hand, in order.

`Config.build` puts a configuration together. The options file is read first, since it may set the
mode, then the env files, and the definitions given by hand are looked at last; the first of these
that fails is reported.
-/

namespace CondRegions

/-- What is transformed, and with which definitions. -/
structure Config where
  /-- The directory that relative paths are taken from. -/
  root : String
  /-- The patterns of files to take. -/
  included : List String
  /-- The patterns of files to leave out. -/
  excluded : List String
  definitions : Definitions
  mode : String
  /-- The limit of the compiler that the patterns are given to. -/
  limit : Glob.Limit := .standard

/-- What a configuration is built from. -/
structure Settings where
  root : String := "."
  /-- The directory of the env files; the root if none is given. -/
  envDir : Option String := none
  mode : Option String := none
  optionsFile : Option String := none
  /-- Whether the environment of the process is a layer of the definitions. -/
  usesProcessEnv : Bool := false
  /-- The environment of the process; of two entries for one variable the later counts. -/
  processEnv : List (String × String) := []
  included : List String := []
  excluded : List String := []
  /-- Definitions given by hand. -/
  defines : List String := []
  /-- The limit of the compiler that the patterns are given to. -/
  limit : Glob.Limit := .standard

namespace Config

/-- The patterns of files to take if nothing else is said. -/
def defaultIncluded : List String := ["**/*"]

/-- The patterns of files to leave out if nothing else is said. -/
def defaultExcluded : List String := ["**/node_modules/**", "**/.git/**"]

/-- The mode if nothing else is said. -/
def defaultMode : String := "development"

/-- The defaults, with the given definitions. -/
def ofDefinitions (definitions : Definitions) : Config where
  root := "."
  included := defaultIncluded
  excluded := defaultExcluded
  definitions
  mode := defaultMode

/-! ### Layers -/

/-- A layer of texts. -/
def textLayer (pairs : List (String × String)) : List (String × Value) :=
  pairs.map fun (key, text) => (key, .string text)

/-- **Mode.** The one asked for, else that of the options file, else that of the environment,
whether or not the environment is a layer. -/
def modeOf (s : Settings) (o : Options) : String :=
  ((s.mode.or o.mode).or ((FinMap.ofList s.processEnv).get? "NODE_ENV")).getD defaultMode

/-- The patterns given by hand, else those of the options file, else the default ones. -/
def pick (given : List String) (file : Option (List String)) (default : List String) :
    List String :=
  if given.isEmpty then file.getD default else given

/-- Lays definitions given by hand on top, in order. -/
def define (definitions : Definitions) : List String → Except Diagnostic Definitions
  | [] => .ok definitions
  | text :: texts => do
    let (key, value) ← parseDefine text
    define (definitions.insert key value) texts

/-- **Layering.** The configuration that the settings, the options and the env files of the mode
make. -/
def assemble (s : Settings) (o : Options) (env : List (String × String)) :
    Except Diagnostic Config := do
  let files := FinMap.ofList (textLayer env)
  let process := if s.usesProcessEnv then files.insertAll (textLayer s.processEnv) else files
  let definitions ← define (process.merge o.definitions) s.defines
  return {
    root := s.root
    included := pick s.included o.included defaultIncluded
    excluded := pick s.excluded o.excluded defaultExcluded
    definitions
    mode := modeOf s o
    limit := s.limit }

/-! ### Reading -/

variable {m : Type → Type} [Monad m]

/-- The assignments of the env files with the given names, in order. A file that is missing is
passed over. -/
def loadEnv (host : Host m) (dir : String) :
    List String → m (Except Diagnostic (List (String × String)))
  | [] => return .ok []
  | name :: names => do
    let path := Path.join dir name
    if ← host.isFile path then
      match ← host.readText path with
      | .error e => return .error (.unreadable "config" path e)
      | .ok text =>
        match ← loadEnv host dir names with
        | .error e => return .error e
        | .ok pairs => return .ok (EnvFile.parse text ++ pairs)
    else loadEnv host dir names

/-- **Building.** The configuration of the settings. -/
def build (host : Host m) (s : Settings) : m (Except Diagnostic Config) := do
  match ← Options.load? host s.optionsFile with
  | .error e => return .error e
  | .ok o =>
    match ← loadEnv host (s.envDir.getD s.root) (EnvFile.names (modeOf s o)) with
    | .error e => return .error e
    | .ok env => return assemble s o env

end Config

end CondRegions
