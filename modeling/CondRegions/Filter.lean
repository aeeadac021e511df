import CondRegions.Glob
import CondRegions.Path

/-!
# File selection

A filter selects paths by two lists of globs. A path is tested in two forms, relative to the root of
the filter and as it stands, both in normal form. It is selected if no glob of the exclude list and
some glob of the include list matches one of them. A path with a null character names no file and is
never selected.
-/

namespace CondRegions

/-- A filter over paths. -/
structure FileFilter where
  root : String
  included : List Glob
  excluded : List Glob

namespace FileFilter

/-- The filter of two lists of patterns. -/
def ofPatterns (root : String) (included excluded : List String)
    (limit : Glob.Limit := .standard) : Except Diagnostic FileFilter := do
  return {
    root
    included := ← included.mapM (Glob.ofPattern limit)
    excluded := ← excluded.mapM (Glob.ofPattern limit) }

/-- The two forms of a path: relative to the root, if it lies under it, and as it stands. -/
def forms (root path : String) : List String :=
  let full := Path.normalize path
  let relative := ((Path.stripPrefix? root path).map Path.render).getD full
  [relative, full]

/-- Whether some glob matches some text. -/
def anyMatch (globs : List Glob) (texts : List String) : Bool :=
  globs.any fun g => texts.any g.isMatch

/-- **Selection.** Whether the filter takes a path. -/
def selects (f : FileFilter) (path : String) : Bool :=
  let forms := forms f.root path
  !(Path.normalize path).toList.contains '\x00' && !anyMatch f.excluded forms &&
    anyMatch f.included forms

end FileFilter

end CondRegions
