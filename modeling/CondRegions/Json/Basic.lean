import CondRegions.Value

/-!
# JSON values

Structured data as options files hold it. An integer stays an integer as long as it fits in 64 bits;
every other number is a double.

* `Json.compress` — the text of a value without white space, the keys of every object sorted;
* `Json.toValue` — the value that a definition gets from structured data.
-/

namespace CondRegions

/-- A JSON value. The entries of an object are in the order of the text, repeated keys included. -/
inductive Json where
  | null
  | bool (b : Bool)
  | integer (n : Int)
  | number (n : Number)
  | string (s : String)
  | array (items : List Json)
  | object (entries : List (String × Json))

instance : Inhabited Json := ⟨.null⟩

namespace Json

/-! ### Objects -/

/-- Sets the entry of a key in a list sorted by keys. -/
def insertSorted {α : Type} (key : String) (value : α) :
    List (String × α) → List (String × α)
  | [] => [(key, value)]
  | (k, v) :: rest =>
    match compare key k with
    | .lt => (key, value) :: (k, v) :: rest
    | .eq => (key, value) :: rest
    | .gt => (k, v) :: insertSorted key value rest

/-- The entries sorted by keys; of two entries with one key the later counts. -/
def sortEntries {α : Type} (entries : List (String × α)) : List (String × α) :=
  entries.foldl (fun sorted (key, value) => insertSorted key value sorted) []

/-! ### Printing -/

/-- A code unit below 32 as an escape with four digits. -/
def escapeControl (c : Char) : List Char :=
  let digits := Text.hexDigits c.toNat
  ['\\', 'u'] ++ List.replicate (4 - digits.length) '0' ++ digits

/-- How one character is written in a string. -/
def escapeChar (c : Char) : List Char :=
  match c with
  | '"' => ['\\', '"']
  | '\\' => ['\\', '\\']
  | '\n' => ['\\', 'n']
  | '\r' => ['\\', 'r']
  | '\t' => ['\\', 't']
  | '\x08' => ['\\', 'b']
  | '\x0c' => ['\\', 'f']
  | c => if c.toNat < 0x20 then escapeControl c else [c]

/-- A string in quotes. -/
def quoteString (s : String) : List Char :=
  '"' :: s.toList.flatMap escapeChar ++ ['"']

/-- An integer in decimal digits. -/
def integerText (n : Int) : List Char :=
  Number.withSign (n < 0) (Number.digitsOf n.natAbs)

/-- Joins texts by commas. -/
def commaSeparated (parts : List (List Char)) : List Char :=
  Text.join [','] parts

mutual

/-- The characters of a value without white space. -/
def render : Json → List Char
  | .null => "null".toList
  | .bool true => "true".toList
  | .bool false => "false".toList
  | .integer n => integerText n
  | .number n => n.toFractionText
  | .string s => quoteString s
  | .array items => '[' :: commaSeparated (renderAll items) ++ [']']
  | .object entries =>
    let parts := (sortEntries (renderEntries entries)).map fun (key, text) =>
      quoteString key ++ ':' :: text
    '\x7b' :: commaSeparated parts ++ ['\x7d']

/-- The texts of several values. -/
def renderAll : List Json → List (List Char)
  | [] => []
  | j :: js => render j :: renderAll js

/-- The texts of the values of several entries, with their keys. -/
def renderEntries : List (String × Json) → List (String × List Char)
  | [] => []
  | (key, j) :: rest => (key, render j) :: renderEntries rest

end

/-- **Compact text.** The text of a value without white space, the keys of every object sorted. -/
def compress (j : Json) : String :=
  String.ofList (render j)

/-- A line break and the indentation of a depth. -/
def newline (depth : Nat) : List Char :=
  '\n' :: List.replicate (2 * depth) ' '

/-- A bracketed list with every part on a line of its own. -/
def bracketLines (opening closing : Char) (depth : Nat) (parts : List (List Char)) : List Char :=
  if parts.isEmpty then [opening, closing]
  else opening :: Text.join [','] (parts.map (newline (depth + 1) ++ ·)) ++
    newline depth ++ [closing]

mutual

/-- The characters of a value, indented. -/
def renderIndented (depth : Nat) : Json → List Char
  | .array items => bracketLines '[' ']' depth (renderAllIndented (depth + 1) items)
  | .object entries =>
    let parts := (sortEntries (renderEntriesIndented (depth + 1) entries)).map fun (key, text) =>
      quoteString key ++ ": ".toList ++ text
    bracketLines '\x7b' '\x7d' depth parts
  | j => render j

/-- The indented texts of several values. -/
def renderAllIndented (depth : Nat) : List Json → List (List Char)
  | [] => []
  | j :: js => renderIndented depth j :: renderAllIndented depth js

/-- The indented texts of the values of several entries, with their keys. -/
def renderEntriesIndented (depth : Nat) : List (String × Json) → List (String × List Char)
  | [] => []
  | (key, j) :: rest => (key, renderIndented depth j) :: renderEntriesIndented depth rest

end

/-- **Indented text.** Two blanks for every level, every item on a line of its own. -/
def pretty (j : Json) : String :=
  String.ofList (renderIndented 0 j)

/-! ### Values -/

/-- The value of a scalar; arrays and objects are none. -/
def toScalar? : Json → Option Value
  | .null => some .null
  | .bool b => some (.bool b)
  | .integer n => some (.number (Number.ofInt n))
  | .number n => some (.number n)
  | .string s => some (.string s)
  | .array _ => none
  | .object _ => none

/-- **Values from data.** A scalar is its value, an array or object its compact text. -/
def toValue (j : Json) : Value :=
  (toScalar? j).getD (.string j.compress)

end Json

end CondRegions
