import CondRegions.Command.Run

/-!
# The program

The files of the machine as a host, and the command line on top of it. What is to be done is decided
elsewhere; this module only reads and prints.
-/

namespace CondRegions.Machine

/-- The number of a failure of the machine, which some operations give with a minus sign. -/
def failureNumber (code : UInt32) : Nat :=
  min code.toNat (0 - code).toNat

/-- The cause of a failure of the machine. -/
def cause (e : IO.Error) : FileError :=
  match e with
  | .noFileOrDirectory .. => .notFound
  | .alreadyExists .. => .alreadyExists
  | .inappropriateType _ code _ =>
    if failureNumber code = 21 then .isADirectory else .notADirectory
  | .invalidArgument _ code _ =>
    if failureNumber code = 36 then .nameTooLong else .other (toString e)
  | e => .other (toString e)

/-- An action of the machine, its failure caught. -/
def attempt {α : Type} (action : IO α) : IO (Except FileError α) := do
  try
    return .ok (← action)
  catch e =>
    return .error (cause e)

/-- A path of the machine. -/
def path (text : String) := System.mkFilePath [text]

/-- What the data of a file say that it is. -/
def entryType (data : IO.FS.Metadata) : EntryType :=
  match data.type with
  | .file => .file
  | .dir => .directory
  | _ => .other

/-- The names in a directory. Links are not followed. -/
def names (dir : String) : IO (List (String × EntryType)) := do
  let entries ← (path dir).readDir
  entries.toList.mapM fun entry => do
    return (entry.fileName, entryType (← entry.path.symlinkMetadata))

/-- Whether a path names a regular file. -/
def isFile (text : String) : IO Bool := do
  match ← attempt (path text).metadata with
  | .ok data => return data.type == .file
  | .error _ => return false

/-- The place of something that exists. -/
def place (text : String) : IO Place := do
  discard (path text).metadata
  let full ← IO.FS.realPath (path text)
  return (Path.segments full.toString).filter (· != "")

/-- The files of the machine. -/
def host : Host IO where
  readBytes text := attempt (IO.FS.readBinFile (path text))
  write text bytes := attempt (IO.FS.writeBinFile (path text) bytes)
  isFile := isFile
  createDirs text := attempt (IO.FS.createDirAll (path text))
  place text := attempt (place text)
  entryType text := attempt do return entryType (← (path text).metadata)
  names text := attempt (names text)

/-- The variables of an environment in which every entry ends in a null character. -/
def assignments (block : String) : List (String × String) :=
  (block.toList.splitOn '\x00').filterMap fun entry =>
    match entry.dropWhile (· != '=') with
    | _ :: value => some (String.ofList (entry.takeWhile (· != '=')), String.ofList value)
    | [] => none

/-- The environment of the process. -/
def environment : IO (List (String × String)) := do
  match ← attempt (IO.FS.readBinFile (path "/proc/self/environ")) with
  | .ok bytes => return assignments ((String.fromUTF8? bytes).getD "")
  | .error _ => return []

/-- Runs a command line and prints what it comes to. -/
def run (args : List String) : IO UInt32 := do
  let out ← runArguments host (← environment) args
  IO.print out.stdout
  for d in out.diagnostics do
    IO.eprint d.report
  for line in out.summary do
    IO.eprintln line
  if out.status == 2 then
    IO.eprint usageText
  return UInt32.ofNat out.status

end CondRegions.Machine

/-- Runs the command line of the program. -/
def main (args : List String) : IO UInt32 :=
  CondRegions.Machine.run args
