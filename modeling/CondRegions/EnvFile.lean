import CondRegions.Text.Basic

/-!
# Env files

An env file assigns texts to keys, one assignment to a line. Empty lines and lines that begin with
`#` say nothing, an `export` in front of a key is skipped, and a value may stand in quotes. Behind a
value without quotes, a blank and a `#` start a comment.
-/

namespace CondRegions.EnvFile

/-- Whether a text of at least two characters begins and ends with `quote`. -/
def isQuoted (quote : Char) (raw : List Char) : Bool :=
  2 ≤ raw.length && raw.head? == some quote && raw.getLast? == some quote

/-- A text without its first and its last character. -/
def stripEnds (raw : List Char) : List Char :=
  (raw.drop 1).dropLast

/-- The text with every backslash and `n` replaced by a line feed. -/
def unescapeBreaks : List Char → List Char
  | '\\' :: 'n' :: cs => '\n' :: unescapeBreaks cs
  | c :: cs => c :: unescapeBreaks cs
  | [] => []

/-- **Values.** Double quotes understand line feeds written as an escape, single quotes nothing;
without quotes a trailing comment is cut off. -/
def value (raw : List Char) : List Char :=
  if isQuoted '"' raw then unescapeBreaks (stripEnds raw)
  else if isQuoted '\'' raw then stripEnds raw
  else match Text.splitAtFirst " #".toList raw with
    | some (before, _) => Text.trimEnd before
    | none => raw

/-- A line without an `export` in front. -/
def dropExport (line : List Char) : List Char :=
  match "export ".toList.isPrefixOf? line with
  | some rest => Text.trimStart rest
  | none => line

/-- The assignment that a line makes. -/
def assignment? (line : List Char) : Option (String × String) :=
  let line := Text.trim line
  if line.isEmpty || line.head? == some '#' then none
  else match Text.splitAtFirst ['='] (dropExport line) with
    | none => none
    | some (key, raw) =>
      let key := Text.trim key
      if key.isEmpty then none
      else some (String.ofList key, String.ofList (value (Text.trim raw)))

/-- **Assignments.** Those of all lines, in order. -/
def parse (text : String) : List (String × String) :=
  (Text.splitLines text.toList).filterMap assignment?

/-- The names of the env files that are read in a mode, in order. -/
def names (mode : String) : List String :=
  [".env", ".env.local", ".env." ++ mode, ".env." ++ mode ++ ".local"]

end CondRegions.EnvFile
