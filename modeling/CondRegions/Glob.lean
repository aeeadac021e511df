import CondRegions.Diagnostic

/-!
# Globs

A glob is a sequence of pieces, read from left to right:

* `**` and a slash match nothing, or any text without line feeds that ends in a slash;
* `**` alone matches any text without line feeds;
* `*` matches any text without slashes;
* `?` matches one character other than a slash;
* any other character matches itself.

A leading `./` is dropped. Matching works from the end of the glob: for every piece, a row of
answers says at which places of the text the glob from that piece on matches the rest.
-/

namespace CondRegions

/-- A piece of a glob. -/
inductive GlobPiece where
  /-- Any number of leading directories. -/
  | directories
  /-- Anything. -/
  | anything
  /-- Anything within a segment. -/
  | segment
  /-- One character within a segment. -/
  | anyChar
  | char (c : Char)
deriving DecidableEq, Repr

/-- A glob: its text and its pieces. -/
structure Glob where
  pattern : String
  pieces : List GlobPiece
deriving DecidableEq, Repr

namespace Glob

/-- The pieces of a glob. -/
def piecesOf : List Char → List GlobPiece
  | '*' :: '*' :: '/' :: cs => .directories :: piecesOf cs
  | '*' :: '*' :: cs => .anything :: piecesOf cs
  | '*' :: cs => .segment :: piecesOf cs
  | '?' :: cs => .anyChar :: piecesOf cs
  | c :: cs => .char c :: piecesOf cs
  | [] => []

/-- A pattern without a leading `./`. -/
def dropHere : List Char → List Char
  | '.' :: '/' :: cs => cs
  | cs => cs

/-! ### Size -/

/-- What the compiler of patterns can take. -/
structure Limit where
  /-- What a piece adds to the size of a compiled pattern, in bytes. -/
  pieceSize : GlobPiece → Nat
  /-- The greatest size of a compiled pattern, in bytes. -/
  maxSize : Nat

namespace Limit

/-- The limit if nothing else is said. -/
def standard : Limit where
  pieceSize
    | .char c => 32 * c.utf8Size
    | _ => 528
  maxSize := 10485760

/-- The size of a compiled pattern, in bytes. -/
def totalSize (limit : Limit) : List GlobPiece → Nat
  | [] => 0
  | piece :: pieces => limit.pieceSize piece + limit.totalSize pieces

end Limit

/-- The glob of a pattern. A pattern that is too large is refused. -/
def ofPattern (limit : Limit) (pattern : String) : Except Diagnostic Glob :=
  let pieces := piecesOf (dropHere pattern.toList)
  if limit.totalSize pieces ≤ limit.maxSize then .ok ⟨pattern, pieces⟩
  else .error (.unplaced "filter" (.invalidGlob pattern
    ("Compiled regex exceeds size limit of " ++ toString limit.maxSize ++ " bytes.")))

/-! ### Matching -/

/-- The answer at the start of a row. -/
def first (row : List Bool) : Bool :=
  row.headD false

/-- The row of a text for the empty glob: it matches the end only. -/
def emptyRow : List Char → List Bool
  | [] => [true]
  | _ :: cs => false :: emptyRow cs

/-- The row of a piece that takes one character with `p`, before the glob whose row is given. -/
def oneRow (p : Char → Bool) : List Char → List Bool → List Bool
  | c :: cs, row => (p c && first (row.drop 1)) :: oneRow p cs (row.drop 1)
  | [], _ => [false]

/-- The row of a piece that takes any number of characters with `p`. -/
def manyRow (p : Char → Bool) : List Char → List Bool → List Bool
  | c :: cs, row =>
    let later := manyRow p cs (row.drop 1)
    (first row || (p c && first later)) :: later
  | [], row => [first row]

/-- The row of at least one directory: any characters but line feeds, then a slash. -/
def directoryRow : List Char → List Bool → List Bool
  | c :: cs, row =>
    let later := directoryRow cs (row.drop 1)
    (c != '\n' && (first later || (c == '/' && first (row.drop 1)))) :: later
  | [], _ => [false]

/-- The row of a piece, before the glob whose row is given. -/
def pieceRow (piece : GlobPiece) (cs : List Char) (row : List Bool) : List Bool :=
  match piece with
  | .char c => oneRow (· == c) cs row
  | .anyChar => oneRow (· != '/') cs row
  | .segment => manyRow (· != '/') cs row
  | .anything => manyRow (· != '\n') cs row
  | .directories => List.zipWith (· || ·) row (directoryRow cs row)

/-- The row of several pieces. -/
def rowOf (cs : List Char) : List GlobPiece → List Bool
  | [] => emptyRow cs
  | piece :: pieces => pieceRow piece cs (rowOf cs pieces)

/-- **Matching.** Whether the pieces, one after the other, match the whole text. -/
def isMatch (g : Glob) (text : String) : Bool :=
  first (rowOf text.toList g.pieces)

end Glob

end CondRegions
