import CondRegions.Path

/-!
# Places

A place in a file system is the list of names on the way to it from the root. Unlike a path, which
is a text and may lead to one place in many ways, a place has one form.

* `Place.text` — the absolute path of a place;
* `Path.descend` — a path with names behind it.
-/

namespace CondRegions

/-- The names on the way from the root. -/
abbrev Place := List String

/-- The absolute path of a place. -/
def Place.text (p : Place) : String :=
  "/" ++ String.intercalate "/" p

/-- A path with names behind it, one after the other. -/
def Path.descend (dir : String) (names : Place) : String :=
  names.foldl Path.join dir

/-- Whether two paths have the same components. -/
def Path.same (a b : String) : Bool :=
  Path.components a == Path.components b

end CondRegions
