import CondRegions.Transformer

/-!
# Emitting a tree

Every file below a source directory is emitted at the same way below a target directory. A file that
is among the selected ones and holds text is transformed, any other file is copied byte by byte. The
target may lie inside the source; what lies below it is then no source. Files are written while the
walk is going on.

* `emitFile` — one file;
* `emitTree` — all files, up to the first failure;
* `Summary.ofOutcomes` — how many files were transformed and copied.
-/

namespace CondRegions

/-- What became of one file. -/
inductive FileOutcome where
  | transformed (out : TransformOutput)
  | copied
  /-- The file could not be emitted, after the given diagnostics were reported. -/
  | failed (reported : List Diagnostic) (error : Diagnostic)

namespace FileOutcome

/-- What was reported about a file. -/
def reported : FileOutcome → List Diagnostic
  | .transformed out => out.diagnostics
  | .copied => []
  | .failed reported _ => reported

/-- Why a file could not be emitted. -/
def error? : FileOutcome → Option Diagnostic
  | .failed _ error => some error
  | _ => none

/-- Whether a file was transformed. -/
def isTransformed : FileOutcome → Bool
  | .transformed _ => true
  | _ => false

/-- Whether a file was transformed into another text. -/
def isChanged : FileOutcome → Bool
  | .transformed out => out.changed
  | _ => false

/-- Whether a file was copied. -/
def isCopied : FileOutcome → Bool
  | .copied => true
  | _ => false

end FileOutcome

/-! ### Summary -/

/-- How many files were transformed, changed and copied, and how many diagnostics that gave. -/
structure Summary where
  transformed : Nat
  changed : Nat
  copied : Nat
  diagnostics : Nat
deriving DecidableEq, Repr

namespace Summary

/-- The summary of what became of all files. -/
def ofOutcomes (outcomes : List FileOutcome) : Summary where
  transformed := outcomes.countP FileOutcome.isTransformed
  changed := outcomes.countP FileOutcome.isChanged
  copied := outcomes.countP FileOutcome.isCopied
  diagnostics := (outcomes.flatMap FileOutcome.reported).length

/-- The lines of a summary. -/
def lines (s : Summary) : List String := [
  "Summary",
  "  transformed: " ++ toString s.transformed ++ " (" ++ toString s.changed ++ " changed)",
  "  copied:      " ++ toString s.copied,
  "  diagnostics: " ++ toString s.diagnostics]

end Summary

/-! ### Files -/

/-- The diagnostic of a file or directory of a command that cannot be used. -/
def Diagnostic.ofFileError (path : String) (e : FileError) : Diagnostic :=
  .unreadable "file-system" path e

/-- What a file is transformed into. None if it is not among the selected files, or holds no
text. -/
def Transformer.output? (t : Transformer) (selected : List String) (path : String)
    (bytes : ByteArray) : Option TransformOutput :=
  if selected.any (Path.same path) then (String.fromUTF8? bytes).bind (t.transform? · path)
  else none

variable {m : Type → Type} [Monad m]

/-- **One file.** The directory that it goes to is made first. -/
def emitFile (host : Host m) (t : Transformer) (selected : List String)
    (source target way : Place) : m FileOutcome := do
  let dir := Place.text (target ++ way).dropLast
  let here := Place.text (source ++ way)
  let there := Place.text (target ++ way)
  match ← host.createDirs dir with
  | .error e => return .failed [] (.ofFileError dir e)
  | .ok _ =>
    match ← host.readBytes here with
    | .error e => return .failed [] (.ofFileError here e)
    | .ok bytes =>
      match t.output? selected here bytes with
      | some out =>
        match ← host.write there out.code.toUTF8 with
        | .error e => return .failed out.diagnostics (.ofFileError there e)
        | .ok _ => return .transformed out
      | none =>
        match ← host.write there bytes with
        | .error e => return .failed [] (.ofFileError here e)
        | .ok _ => return .copied

/-- Emits the files that it comes to, and passes over the target; a failure ends the walk. -/
def Visitor.emitting (host : Host m) (t : Transformer) (selected : List String)
    (source target : Place) : Visitor m FileOutcome where
  skips path := Path.same path (Place.text target)
  file := emitFile host t selected source target
  unread path e := .failed [] (.unwalkable "file-system" path e)
  ends outcome := outcome.error?.isSome

/-- **All files.** Those of the source that do not lie in the target, in the order of a walk. -/
def emitTree (host : Host m) (t : Transformer) (selected : List String) (source target : Place) :
    m (List FileOutcome) :=
  host.walk (.emitting host t selected source target) (Place.text source)

end CondRegions
