/-!
# Line differences

The lines of two texts side by side: those in common once, those of the first text alone as removed,
those of the second alone as added.

What counts as common is read off the table of longest common subsequences, walking back from its
last cell. Where two lines differ, the walk steps back in the second text if the cell read just
before is greater than the cell above, and in the first text otherwise. The cell read just before is
the left neighbour, but for the first cell of a row it is the last one of the row above, so the walk
does not always find a longest subsequence.

* `LineDiff.common` — the lines that the walk finds;
* `LineDiff.changes` — both texts, merged along their common lines.
-/

namespace CondRegions.LineDiff

/-! ### Common lines -/

/-- A row of the table from the row above it: `left` and `corner` are the neighbours of its first
cell. -/
def row (line : String) : (left corner : Nat) → List String → List Nat → List Nat
  | left, corner, other :: others, above :: aboves =>
    let cell := if line = other then corner + 1 else max left above
    cell :: row line cell above others aboves
  | _, _, _, _ => []

/-- The rows of the table, each below the one before. -/
def rows (others : List String) (above : List Nat) : List String → List (List Nat)
  | [] => []
  | line :: lines =>
    let next := row line 0 0 others above
    next :: rows others next lines

/-- **The table.** The cell at `i`, `j` holds the length of the longest common subsequence of the
lines up to `i` of the first text and up to `j` of the second. -/
def table (a b : List String) : Array (Array Nat) :=
  ((rows b (b.map fun _ => 0) a).map List.toArray).toArray

/-- A cell of the table. -/
def cell (t : Array (Array Nat)) (i j : Nat) : Nat :=
  (t.getD i #[]).getD j 0

/-- The cell read just before the cell at `i`, `j`, in a table with `width` columns. -/
def cellBefore (t : Array (Array Nat)) (width i j : Nat) : Nat :=
  if j = 0 then cell t (i - 1) (width - 1) else cell t i (j - 1)

/-- Walks back through the first `n` and `m` lines and puts the lines taken in front of `taken`. -/
def walk (a b : Array String) (t : Array (Array Nat)) (n m : Nat) (taken : List String) :
    List String :=
  match n, m with
  | i + 1, j + 1 =>
    let line := a.getD i ""
    if line = b.getD j "" then walk a b t i j (line :: taken)
    else if i = 0 && j = 0 then taken
    else if i = 0 || cell t (i - 1) j < cellBefore t b.size i j then walk a b t (i + 1) j taken
    else walk a b t i (j + 1) taken
  | _, _ => taken
termination_by n + m

/-- The pieces of a text between line feeds. -/
def pieces (text : String) : List String :=
  (text.toList.splitOn '\n').map String.ofList

/-- The lines of a text; an empty text has none. -/
def lines (text : String) : List String :=
  if text = "" then [] else pieces text

/-- **Common lines.** A single empty line is not counted. -/
def common (before after : String) : List String :=
  let a := pieces before
  let b := pieces after
  let taken := walk a.toArray b.toArray (table a b) a.length b.length []
  if taken = [""] then [] else taken

/-! ### Changes -/

/-- A line of a difference. -/
inductive Change where
  | same (line : String)
  | removed (line : String)
  | added (line : String)
deriving DecidableEq, Repr

/-- Two lists of lines, merged along their common lines. -/
def merge : List String → List String → List String → List Change
  | [], before, after => before.map .removed ++ after.map .added
  | line :: rest, before, after =>
    (before.takeWhile (· != line)).map .removed ++ (after.takeWhile (· != line)).map .added ++
      .same line :: merge rest ((before.dropWhile (· != line)).drop 1)
        ((after.dropWhile (· != line)).drop 1)

/-- **Changes.** What leads from one text to the other. -/
def changes (before after : String) : List Change :=
  merge (common before after) (lines before) (lines after)

/-- A line of a difference, with its mark in front. -/
def Change.text : Change → String
  | .same line => " " ++ line ++ "\n"
  | .removed line => "-" ++ line ++ "\n"
  | .added line => "+" ++ line ++ "\n"

/-- The difference of two texts, written out. -/
def text (before after : String) : String :=
  String.join ((changes before after).map Change.text)

end CondRegions.LineDiff
