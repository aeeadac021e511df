import CondRegions.Files.Host

/-!
# Walks

A walk goes through what lies at or below a path, from the top down. It lists a directory when it
comes to it, so that a file which is made on the way is visited if its directory is still to be
listed.

What is done on the way is up to a `Visitor`: which paths are passed over, what comes of a file and
of a path that cannot be read, and when the walk is at an end.

* `inTurn` — actions one after the other, up to one that ends them;
* `Host.walk` — a walk.
-/

namespace CondRegions

/-- What a walk does with what it comes to. -/
structure Visitor (m : Type → Type) (β : Type) where
  /-- Whether a path is passed over, with everything below it. -/
  skips : String → Bool
  /-- What comes of a file, given the way to it. -/
  file : Place → m β
  /-- What comes of a path that cannot be read. -/
  unread : String → FileError → β
  /-- Whether the walk ends with this. -/
  ends : β → Bool

variable {m : Type → Type} [Monad m] {α β : Type}

/-- Actions one after the other, up to the first one that ends them. -/
def inTurn (ends : β → Bool) (act : α → m (List β)) : List α → m (List β)
  | [] => return []
  | a :: as => do
    let done ← act a
    if done.any ends then return done
    else return done ++ (← inTurn ends act as)

namespace Host

/-- How many names a path can have: a name and the slash before it have two bytes at least, and a
path has at most 4095. -/
def maxDepth : Nat := 2048

/-- What comes of what lies at a path, at the end of `way`, and below it. A path that has too many
names is too long. -/
def walkBelow (host : Host m) (v : Visitor m β) (depth : Nat) (path : String) (way : Place)
    (type : EntryType) : m (List β) := do
  if v.skips path then return []
  else
    match type, depth with
    | .file, _ => return [← v.file way]
    | .other, _ => return []
    | .directory, 0 => return [v.unread path .nameTooLong]
    | .directory, depth + 1 =>
      match ← host.names path with
      | .error e => return [v.unread path e]
      | .ok names =>
        inTurn v.ends (fun (name, type) =>
          host.walkBelow v depth (Path.join path name) (way ++ [name]) type) names

/-- **Walks.** What comes of everything that lies at or below a path, in the order of the walk. -/
def walk (host : Host m) (v : Visitor m β) (path : String) : m (List β) := do
  match ← host.entryType path with
  | .error e => return [v.unread path e]
  | .ok type => host.walkBelow v maxDepth path [] type

end Host

end CondRegions
