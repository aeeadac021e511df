/-!
# File errors

Why a file or a directory cannot be used, with the wording of the operating system.
-/

namespace CondRegions

/-- Why a file or a directory cannot be used. -/
inductive FileError where
  /-- Nothing is there. -/
  | notFound
  /-- A file stands where a directory is needed. -/
  | notADirectory
  /-- A directory stands where a file is needed. -/
  | isADirectory
  /-- A directory cannot be made where a file stands. -/
  | alreadyExists
  /-- A name or a path has too many bytes. -/
  | nameTooLong
  /-- A null character stands in a name. -/
  | nullInName
  /-- The bytes of a file are no text. -/
  | notText
  /-- Anything else, in the words of the system. -/
  | other (text : String)
deriving DecidableEq, Repr

/-- The wording of an error. -/
def FileError.message : FileError → String
  | .notFound => "No such file or directory (os error 2)"
  | .notADirectory => "Not a directory (os error 20)"
  | .isADirectory => "Is a directory (os error 21)"
  | .alreadyExists => "File exists (os error 17)"
  | .nameTooLong => "File name too long (os error 36)"
  | .nullInName => "file name contained an unexpected NUL byte"
  | .notText => "stream did not contain valid UTF-8"
  | .other text => text

end CondRegions
