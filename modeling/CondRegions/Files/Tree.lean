import CondRegions.FinMap
import CondRegions.Files.Host

/-!
# File trees

A finite tree of directories and regular files, with a working directory: a file system that is a
value. It maps places to what stands there; the root is always a directory.

A path is followed name by name. Every name but the last must be that of a directory, two points go
back to the directory above, and a slash at the end asks for a directory. A name has at most 255
bytes, and a path at most 4095.

* `FileTree.resolve` — the place that a path leads to;
* `FileTree.host` — the operations of a file system on a tree.
-/

namespace CondRegions

/-- What stands at a place. -/
inductive Entry where
  | directory
  | file (bytes : ByteArray)

/-- What the name of an entry stands for. -/
def Entry.type : Entry → EntryType
  | .directory => .directory
  | .file _ => .file

/-- Directories and files, and the working directory. -/
structure FileTree where
  entries : FinMap Place Entry
  cwd : Place

namespace FileTree

/-- The tree without files, at its root. -/
def empty : FileTree := ⟨.empty, []⟩

/-- What stands at a place. -/
def get? (t : FileTree) (p : Place) : Option Entry :=
  if p = [] then some .directory else t.entries.get? p

/-- The tree with something put at a place. -/
def set (t : FileTree) (p : Place) (entry : Entry) : FileTree :=
  { t with entries := t.entries.insert p entry }

/-- Putting something at a place other than the root changes what stands there, and nothing else. -/
theorem get?_set (t : FileTree) (p : Place) (entry : Entry) (q : Place) (h : p ≠ []) :
    (t.set p entry).get? q = if q = p then some entry else t.get? q := by
  by_cases hq : q = []
  · subst hq
    simp [get?, Ne.symm h]
  · simp [get?, set, hq, FinMap.get?_insert]

/-! ### Paths -/

/-- Whether a name has more bytes than a directory can hold. -/
def isLongName (name : String) : Bool :=
  255 < name.utf8ByteSize

/-- Why a path cannot be followed whatever the tree holds, if there is a reason. -/
def pathFault? (path : String) : Option FileError :=
  if path.toList.contains '\x00' then some .nullInName
  else if 4095 < path.utf8ByteSize then some .nameTooLong
  else none

/-- Follows the pieces of a path from a place. -/
def follow (t : FileTree) : Place → List String → Except FileError Place
  | here, [] => .ok here
  | here, piece :: pieces =>
    match t.get? here with
    | none => .error .notFound
    | some (.file _) => .error .notADirectory
    | some .directory =>
      if piece = "" || piece = "." then t.follow here pieces
      else if piece = ".." then t.follow here.dropLast pieces
      else if isLongName piece then .error .nameTooLong
      else t.follow (here ++ [piece]) pieces

/-- Where a path starts. -/
def origin (t : FileTree) (path : String) : Place :=
  if path.startsWith "/" then [] else t.cwd

/-- **Resolution.** The place that a path leads to. Nothing need stand there, but the directory
above it exists. -/
def resolve (t : FileTree) (path : String) : Except FileError Place :=
  match pathFault? path with
  | some e => .error e
  | none =>
    if path = "" then .error .notFound
    else t.follow (t.origin path) (Path.segments path)

/-- The place of something that exists, with what stands there. -/
def find (t : FileTree) (path : String) : Except FileError (Place × Entry) := do
  let p ← t.resolve path
  match t.get? p with
  | some entry => return (p, entry)
  | none => .error .notFound

/-- The same tree with another working directory. -/
def enter (t : FileTree) (path : String) : Except FileError FileTree := do
  match ← t.find path with
  | (p, .directory) => return { t with cwd := p }
  | (_, .file _) => .error .notADirectory

/-! ### Reading -/

/-- The bytes of a file. -/
def readBytes (t : FileTree) (path : String) : Except FileError ByteArray := do
  match ← t.find path with
  | (_, .file bytes) => return bytes
  | (_, .directory) => .error .isADirectory

/-- Whether a path names a regular file. -/
def isFile (t : FileTree) (path : String) : Bool :=
  match t.find path with
  | .ok (_, .file _) => true
  | _ => false

/-- The names that stand in a place. -/
def namesIn (t : FileTree) (p : Place) : List (String × EntryType) :=
  t.entries.entries.filterMap fun (q, entry) =>
    match p.isPrefixOf? q with
    | some [name] => some (name, entry.type)
    | _ => none

/-- The names in a directory, where `listing` says which names stand in a place. -/
def namesBy (listing : FileTree → Place → List (String × EntryType)) (t : FileTree)
    (path : String) : Except FileError (List (String × EntryType)) := do
  match ← t.find path with
  | (p, .directory) => return listing t p
  | (_, .file _) => .error .notADirectory

/-! ### Writing -/

/-- Gives a file its bytes. -/
def write (t : FileTree) (path : String) (bytes : ByteArray) : Except FileError FileTree := do
  let p ← t.resolve path
  match t.get? p with
  | some .directory => .error .isADirectory
  | _ => return t.set p (.file bytes)

/-- Makes the directories that are missing along the pieces of a path. -/
def makeDirs (t : FileTree) : Place → List String → Except FileError FileTree
  | _, [] => .ok t
  | here, piece :: pieces =>
    if piece = "" || piece = "." then t.makeDirs here pieces
    else if piece = ".." then t.makeDirs here.dropLast pieces
    else if isLongName piece then .error .nameTooLong
    else
      let next := here ++ [piece]
      match t.get? next with
      | some .directory => t.makeDirs next pieces
      | some (.file _) => .error (if pieces.all (· = "") then .alreadyExists else .notADirectory)
      | none => (t.set next .directory).makeDirs next pieces

/-- Makes a directory and those above it. -/
def createDirs (t : FileTree) (path : String) : Except FileError FileTree :=
  match pathFault? path with
  | some e => .error e
  | none => t.makeDirs (t.origin path) (Path.segments path)

/-! ### As a host -/

/-- A change of the tree as an action: on an error the tree stays as it was. -/
def change (f : FileTree → Except FileError FileTree) : StateM FileTree (Except FileError Unit) :=
  fun t =>
    match f t with
    | .ok t' => (.ok (), t')
    | .error e => (.error e, t)

/-- **A tree as a file system.** -/
def host : Host (StateM FileTree) where
  readBytes path := do return (← get).readBytes path
  write path bytes := change (·.write path bytes)
  isFile path := do return (← get).isFile path
  createDirs path := change (·.createDirs path)
  place path := do return ((← get).find path).map Prod.fst
  entryType path := do return ((← get).find path).map fun (_, entry) => entry.type
  names path := do return (← get).namesBy namesIn path

end FileTree

end CondRegions
