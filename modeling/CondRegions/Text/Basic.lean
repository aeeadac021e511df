import CondRegions.Text.WhiteSpace

/-!
# Text as characters with byte offsets

Every offset of the library counts the bytes of the UTF-8 form of a text. Inside, a text is its list
of characters; a `String` is taken apart and put together at the public functions only.

* `byteLength` — the length of a text in bytes;
* `slice` — the part of a text between two offsets, total: an offset inside a character stands for
  the end of that character, one past the end for the end;
* `lines` — the text cut after every line feed, so that the pieces put together are the text;
* `trim`, `trimEnd`, `trimBlanksEnd` — white space and blanks removed at the ends.
-/

namespace CondRegions.Text

/-! ### Lengths and slices -/

/-- Length in bytes of the UTF-8 form. -/
def byteLength : List Char → Nat
  | [] => 0
  | c :: cs => c.utf8Size + byteLength cs

@[simp]
theorem byteLength_nil : byteLength [] = 0 := rfl

@[simp]
theorem byteLength_cons (c : Char) (cs : List Char) :
    byteLength (c :: cs) = c.utf8Size + byteLength cs := rfl

@[simp]
theorem byteLength_append (xs ys : List Char) :
    byteLength (xs ++ ys) = byteLength xs + byteLength ys := by
  induction xs with
  | nil => simp
  | cons c cs ih => simp [ih, Nat.add_assoc]

/-- The text without its first `n` bytes. -/
def dropBytes : Nat → List Char → List Char
  | 0, cs => cs
  | _ + 1, [] => []
  | n + 1, c :: cs => dropBytes (n + 1 - c.utf8Size) cs

/-- The first `n` bytes of the text. -/
def takeBytes : Nat → List Char → List Char
  | 0, _ => []
  | _ + 1, [] => []
  | n + 1, c :: cs => c :: takeBytes (n + 1 - c.utf8Size) cs

/-- The part of the text from offset `start` up to offset `stop`. -/
def slice (cs : List Char) (start stop : Nat) : List Char :=
  takeBytes (stop - start) (dropBytes start cs)

/-! ### Lines -/

/-- **Lines.** The text cut after every line feed. No piece is empty, and only the last one can lack
its line feed. -/
def lines : List Char → List (List Char)
  | [] => []
  | c :: cs =>
    if c = '\n' then [c] :: lines cs
    else match lines cs with
      | [] => [[c]]
      | l :: ls => (c :: l) :: ls

/-- Nothing is lost by cutting a text into lines. -/
@[simp]
theorem flatten_lines (cs : List Char) : (lines cs).flatten = cs := by
  induction cs with
  | nil => rfl
  | cons c cs ih =>
    by_cases h : c = '\n'
    · simp [lines, h, ih]
    · rw [lines, if_neg h]
      cases hl : lines cs with
      | nil => simp_all
      | cons l ls => simp_all

/-- The pieces between line feeds, line feeds left out; there is always at least one. -/
def splitLines (cs : List Char) : List (List Char) :=
  cs.splitOn '\n'

/-- The number of line feeds. -/
def countBreaks (cs : List Char) : Nat :=
  cs.count '\n'

/-! ### Trimming -/

/-- The text without the characters at its end that satisfy `p`. -/
def dropEndWhile (p : Char → Bool) (cs : List Char) : List Char :=
  (cs.reverse.dropWhile p).reverse

/-- The text without white space at its start. -/
def trimStart (cs : List Char) : List Char :=
  cs.dropWhile isWhiteSpace

/-- The text without white space at its end. -/
def trimEnd (cs : List Char) : List Char :=
  dropEndWhile isWhiteSpace cs

/-- The text without white space at either end. -/
def trim (cs : List Char) : List Char :=
  trimEnd (trimStart cs)

/-- The text without blanks at its start. -/
def skipBlanks (cs : List Char) : List Char :=
  cs.dropWhile isBlank

/-- The text without blanks at its end. -/
def trimBlanksEnd (cs : List Char) : List Char :=
  dropEndWhile isBlank cs

/-- The words of a text: its maximal runs of characters that are not white space. -/
def words (cs : List Char) : List (List Char) :=
  (cs.splitOnP isWhiteSpace).filter (fun w => !w.isEmpty)

/-! ### Searching -/

/-- The text before and after the first occurrence of `needle`. -/
def splitAtFirst (needle : List Char) : List Char → Option (List Char × List Char)
  | [] => if needle.isEmpty then some ([], []) else none
  | c :: cs =>
    match needle.isPrefixOf? (c :: cs) with
    | some rest => some ([], rest)
    | none => (splitAtFirst needle cs).map fun (before, rest) => (c :: before, rest)

/-- What follows an initial segment is shorter than the text by that segment. -/
theorem length_of_isPrefixOf? {start cs rest : List Char}
    (h : start.isPrefixOf? cs = some rest) : start.length + rest.length = cs.length := by
  induction start generalizing cs with
  | nil =>
    obtain rfl := Option.some.inj h
    exact Nat.zero_add _
  | cons c start ih =>
    cases cs with
    | nil => exact absurd h nofun
    | cons d cs =>
      change (if c == d then start.isPrefixOf? cs else none) = some rest at h
      split at h
      · rw [List.length_cons, List.length_cons, ← ih h, Nat.add_right_comm]
      · exact absurd h nofun

/-- Joins texts with `separator` between them. -/
def join (separator : List Char) (parts : List (List Char)) : List Char :=
  (parts.intersperse separator).flatten

end CondRegions.Text
