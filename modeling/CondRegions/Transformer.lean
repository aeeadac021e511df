import CondRegions.Config
import CondRegions.Files.Walk
import CondRegions.Filter
import CondRegions.Transform

/-!
# Transformers

A transformer is a configuration made ready for use: its patterns are read once, and it is then
applied to any number of files.

* `Transformer.transform?` — the transformed source of a file, if the file is selected;
* `Transformer.discover` — the selected files below a directory, in the order of their paths.
-/

namespace CondRegions

/-- A configuration with its filter. -/
structure Transformer where
  config : Config
  filter : FileFilter

namespace Transformer

/-- The transformer of a configuration. -/
def ofConfig (config : Config) : Except Diagnostic Transformer := do
  let filter ← FileFilter.ofPatterns config.root config.included config.excluded config.limit
  return { config, filter }

/-- Whether a path is selected. -/
def selects (t : Transformer) (path : String) : Bool :=
  t.filter.selects path

/-- **Transforming a file.** None if the file is not selected. -/
def transform? (t : Transformer) (source path : String) : Option TransformOutput :=
  if t.selects path then some (transform source path t.config.definitions) else none

/-- The text of a document after transforming it, with what was reported. A document that is not
selected stays as it is. -/
def transformDocument (t : Transformer) (source path : String) : String × List Diagnostic :=
  match t.transform? source path with
  | some out => (out.code, out.diagnostics)
  | none => (source, [])

end Transformer

/-! ### Discovery -/

/-- The diagnostic of a path that cannot be read on a walk. -/
def Diagnostic.unwalkable (phase path : String) (e : FileError) : Diagnostic :=
  .unplaced phase (.invalidPath
    ("failed to walk directory: IO error for operation on " ++ path ++ ": " ++ e.message))

variable {m : Type → Type} [Monad m]

/-- Notes the ways to the files, those at or below `skip` left out. -/
def Visitor.noting (skip : Option String) : Visitor m (Except Diagnostic Place) where
  skips path := skip.any (Path.same path)
  file way := return .ok way
  unread path e := .error (.unwalkable "filter" path e)
  ends found := !found.isOk

/-- **Discovery.** The selected files at or below a directory, those at or below `skip` left out. -/
def Transformer.discover (host : Host m) (t : Transformer) (dir : String) (skip : Option String) :
    m (Except Diagnostic (List String)) := do
  let found ← host.walk (.noting skip) dir
  return do
    let ways ← found.mapM id
    return Path.inOrder ((ways.map (Path.descend dir)).filter t.selects)

end CondRegions
