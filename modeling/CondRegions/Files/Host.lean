import CondRegions.Files.Error
import CondRegions.Files.Place

/-!
# Hosts

What the program asks of a file system, in any monad. The work that reads and writes files is
written over a host, so that it runs on the files of the machine and on a `FileTree` alike.
-/

namespace CondRegions

/-- What a name in a directory stands for. -/
inductive EntryType where
  | file
  | directory
  /-- Anything else, such as a link. -/
  | other
deriving DecidableEq, Repr

/-- The operations of a file system. Paths are texts, as they were given. -/
structure Host (m : Type → Type) where
  /-- The bytes of a file. -/
  readBytes : String → m (Except FileError ByteArray)
  /-- Gives a file its bytes; the file is made if its directory exists. -/
  write : String → ByteArray → m (Except FileError Unit)
  /-- Whether a path names a regular file. -/
  isFile : String → m Bool
  /-- Makes a directory and all directories above it that are missing. -/
  createDirs : String → m (Except FileError Unit)
  /-- The place of something that exists. -/
  place : String → m (Except FileError Place)
  /-- What a path stands for. -/
  entryType : String → m (Except FileError EntryType)
  /-- The names in a directory with what they stand for, in any order. -/
  names : String → m (Except FileError (List (String × EntryType)))

namespace Host

variable {m : Type → Type} [Monad m]

/-- The text that bytes encode. -/
def decode (bytes : ByteArray) : Except FileError String :=
  match String.fromUTF8? bytes with
  | some text => .ok text
  | none => .error .notText

/-- The text of a file. -/
def readText (host : Host m) (path : String) : m (Except FileError String) := do
  return (← host.readBytes path) >>= decode

end Host

end CondRegions
