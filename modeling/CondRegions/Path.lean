import CondRegions.Text.Basic

/-!
# Paths

A path is a text; what it means is the list of its components. Repeated slashes, a slash at the end
and points inside a path mean nothing; a point at the start of a relative path is a component of its
own.

* `Path.components` — the components of a path;
* `Path.normalize` — the components written out again, points left out;
* `Path.stripPrefix?` — the components behind those of another path.
-/

namespace CondRegions.Path

/-- A component of a path. -/
inductive Component where
  /-- The slash at the start. -/
  | root
  /-- A point at the start. -/
  | here
  /-- Two points. -/
  | up
  | name (s : String)
deriving DecidableEq, Repr

/-- The pieces between slashes. -/
def segments (path : String) : List String :=
  (path.toList.splitOn '/').map String.ofList

/-- The component that a piece stands for behind the first one. -/
def ofSegment? (s : String) : Option Component :=
  if s = "" || s = "." then none
  else if s = ".." then some .up
  else some (.name s)

/-- What stands in front of the first piece. -/
def leading (path : String) : List Component :=
  match segments path with
  | "" :: _ :: _ => [.root]
  | "." :: _ => [.here]
  | _ => []

/-- **Components.** -/
def components (path : String) : List Component :=
  leading path ++ (segments path).filterMap ofSegment?

/-- The text of a component between slashes; points and the root have none. -/
def Component.text? : Component → Option String
  | .root => none
  | .here => none
  | .up => some ".."
  | .name s => some s

/-- Components written out with slashes between them. -/
def render (cs : List Component) : String :=
  let body := String.intercalate "/" (cs.filterMap Component.text?)
  if cs.head? = some .root then "/" ++ body else body

/-- **Normal form.** -/
def normalize (path : String) : String :=
  render (components path)

/-- The components of `path` behind those of `base`, if they are the first ones of it. -/
def stripPrefix? (base path : String) : Option (List Component) :=
  (components base).isPrefixOf? (components path)

/-- A name put behind a path. An absolute name replaces it. -/
def join (dir name : String) : String :=
  if dir = "" || name.startsWith "/" then name
  else if dir.endsWith "/" then dir ++ name
  else dir ++ "/" ++ name

/-- The rank of a component in the order of paths. -/
def Component.rank : Component → Nat
  | .root => 0
  | .here => 1
  | .up => 2
  | .name _ => 3

/-- The order of components: names come last and are ordered by their characters. -/
def Component.compare : Component → Component → Ordering
  | .name a, .name b => Ord.compare a b
  | a, b => Ord.compare a.rank b.rank

/-- The order of lists of components, by the first difference. -/
def compareComponents : List Component → List Component → Ordering
  | [], [] => .eq
  | [], _ :: _ => .lt
  | _ :: _, [] => .gt
  | a :: as, b :: bs => (a.compare b).then (compareComponents as bs)

/-- **Order of paths.** Whether one path comes no later than another, component by component. -/
def comesNoLater (a b : String) : Bool :=
  (compareComponents (components a) (components b)).isLE

/-- A path among paths that are in order, in front of the first one that it comes no later than. -/
def insertInOrder (path : String) : List String → List String
  | [] => [path]
  | next :: rest =>
    if comesNoLater path next then path :: next :: rest
    else next :: insertInOrder path rest

/-- Paths in the order of their components. -/
def inOrder (paths : List String) : List String :=
  paths.foldr insertInOrder []

/-- The last component of a path, if it is a name. -/
def fileName? (path : String) : Option String :=
  match (components path).getLast? with
  | some (.name s) => some s
  | _ => none

/-- **Extension.** What stands behind the last point of the file name. A name that has its only
point at the start has none. -/
def extension (path : String) : String :=
  match fileName? path with
  | none => ""
  | some name =>
    let cs := name.toList.reverse
    match cs.dropWhile (· != '.') with
    | _ :: _ :: _ => String.ofList (cs.takeWhile (· != '.')).reverse
    | _ => ""

end CondRegions.Path
