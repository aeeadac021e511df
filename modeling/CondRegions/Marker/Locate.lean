import CondRegions.Marker.Basic

/-!
# Locating markers

A marker stands at the start of a line, so a text is searched line by line: `startOnLine?` and
`endOnLine?` say whether a line opens with a marker and what it looks like, and `locate` puts the
answers at the offsets of their lines.

## Shapes

All markers begin with blanks, the opener of the style, blanks, a `#` and the directive; blanks may
separate the two words of a directive.

* A start marker goes on with at least one blank and a condition that does not begin with white
  space.
* In the line style nothing but blanks and the line break may follow the condition or the closing
  directive, and the condition holds no carriage return.
* In the other two styles the closer follows; the closer of a start marker is the first one on the
  line that leaves the condition at least one character. Blanks and a line break belong to the
  marker if nothing else follows on the line.
-/

namespace CondRegions

/-! ### Parts of a line -/

namespace MarkerLine

/-- The text behind blanks, the opener, blanks and the number sign. -/
def afterHash? (family : Family) (line : List Char) : Option (List Char) := do
  let body ← family.opener.isPrefixOf? (Text.skipBlanks line)
  ['#'].isPrefixOf? (Text.skipBlanks body)

/-- The text behind at least one blank, further blanks skipped. -/
def afterBlanks? : List Char → Option (List Char)
  | c :: cs => if isBlank c then some (Text.skipBlanks cs) else none
  | [] => none

/-- The directive of a start marker, and what follows it. -/
def startDirective? (cs : List Char) : Option (Kind × List Char) :=
  match "ifdef".toList.isPrefixOf? cs with
  | some rest => some (.ifdef, rest)
  | none =>
    match "ifndef".toList.isPrefixOf? cs with
    | some rest => some (.ifndef, rest)
    | none => do
      let words ← afterBlanks? (← "region".toList.isPrefixOf? cs)
      match "ifdef".toList.isPrefixOf? words with
      | some rest => some (.regionIfdef, rest)
      | none => do
        let rest ← "ifndef".toList.isPrefixOf? words
        some (.regionIfndef, rest)

/-- The directive of an end marker, and what follows it. -/
def endDirective? (cs : List Char) : Option (Kind × List Char) :=
  match "endif".toList.isPrefixOf? cs with
  | some rest => some (.endif, rest)
  | none => do
    let words ← afterBlanks? (← "endregion".toList.isPrefixOf? cs)
    let rest ← "endif".toList.isPrefixOf? words
    some (.endregionEndif, rest)

/-- Whether a text is a line break: a line feed, with or without a carriage return before it. -/
def isLineBreak (cs : List Char) : Bool :=
  cs == ['\n'] || cs == ['\r', '\n']

/-- A line without its line break. -/
def dropLineBreak (line : List Char) : List Char :=
  match line.reverse with
  | '\n' :: '\r' :: rest => rest.reverse
  | '\n' :: rest => rest.reverse
  | _ => line

/-- What is left of a line behind a closer: nothing, if only blanks and a line break follow, and all
of it otherwise. -/
def afterCloser (rest : List Char) : List Char :=
  if isLineBreak (Text.skipBlanks rest) then [] else rest

/-! ### Whole lines -/

/-- The condition that a text opens with, and what follows the marker. -/
def condition? (family : Family) (cs : List Char) : Option (List Char × List Char) :=
  match cs with
  | [] => none
  | c :: more =>
    if isWhiteSpace c then none
    else match family.closer? with
      | none =>
        let body := dropLineBreak cs
        if body.contains '\r' then none else some (Text.trimBlanksEnd body, [])
      | some closer =>
        (Text.splitAtFirst closer more).map fun (before, rest) =>
          (Text.trimBlanksEnd (c :: before), afterCloser rest)

/-- The marker that opens a region and that a line begins with; spans count from the start of the
line. -/
def startOnLine? (family : Family) (line : List Char) : Option Marker := do
  let (kind, rest) ← startDirective? (← afterHash? family line)
  let body ← afterBlanks? rest
  let (condition, after) ← condition? family body
  let offset := Text.byteLength line - Text.byteLength body
  let text := Text.trimEnd condition
  return {
    kind
    span := ⟨0, Text.byteLength line - Text.byteLength after⟩
    condition := some ⟨String.ofList text, ⟨offset, offset + Text.byteLength text⟩⟩ }

/-- What follows the marker that closes a region, `cs` being what stands behind its directive. -/
def afterEnd? (family : Family) (cs : List Char) : Option (List Char) :=
  let rest := Text.skipBlanks cs
  match family.closer? with
  | none => if rest.isEmpty || isLineBreak rest then some [] else none
  | some closer => (closer.isPrefixOf? rest).map afterCloser

/-- The marker that closes a region and that a line begins with; spans count from the start of the
line. -/
def endOnLine? (family : Family) (line : List Char) : Option Marker := do
  let (kind, rest) ← endDirective? (← afterHash? family line)
  let after ← afterEnd? family rest
  return {
    kind
    span := ⟨0, Text.byteLength line - Text.byteLength after⟩
    condition := none }

end MarkerLine

/-! ### Whole texts -/

/-- A marker moved right by `offset` bytes. -/
def Marker.shift (m : Marker) (offset : Nat) : Marker :=
  { m with
    span := m.span.shift offset
    condition := m.condition.map fun c => { c with span := c.span.shift offset } }

/-- The start and the end markers of a text, each in the order of their offsets. -/
structure Markers where
  starts : List Marker
  ends : List Marker
deriving DecidableEq, Repr

namespace Markers

/-- No markers. -/
def none : Markers := ⟨[], []⟩

/-- Whether there are no markers. -/
def isEmpty (ms : Markers) : Bool :=
  ms.starts.isEmpty && ms.ends.isEmpty

/-- The markers found on consecutive lines, the first of which begins at `offset`. -/
def onLines (recognise : List Char → Option Marker) (offset : Nat) :
    List (List Char) → List Marker
  | [] => []
  | line :: lines =>
    let later := onLines recognise (offset + Text.byteLength line) lines
    match recognise line with
    | some m => m.shift offset :: later
    | Option.none => later

end Markers

/-- **Locating.** The markers of one style in a text. -/
def locate (family : Family) (text : List Char) : Markers where
  starts := Markers.onLines (MarkerLine.startOnLine? family) 0 (Text.lines text)
  ends := Markers.onLines (MarkerLine.endOnLine? family) 0 (Text.lines text)

end CondRegions
