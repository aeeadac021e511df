import CondRegions.Json.Reader
import CondRegions.Yaml.Glyph

/-!
# Tags of YAML

A tag says what a node is. It is written behind an exclamation mark: as it is in angle brackets, or
as a *handle* and a rest, where the handle stands for how the tag begins. An exclamation mark alone
is the handle of the application's own tags and two are the handle of the core schema; the
directives of a document can add handles and give these two another meaning.

A percent sign and two hexadecimal digits stand for an octet, so a tag is a list of octets. A zero
octet ends what is written.

* `scanTag?` — a tag at the start of a text, as a handle and a rest;
* `Tag.resolve?` — the tag that a handle and a rest stand for.
-/

namespace CondRegions.Yaml

/-- The octets of a text of ASCII characters. -/
def asciiOctets (text : String) : List UInt8 :=
  text.toList.map Char.toUInt8

/-- A tag. -/
structure Tag where
  octets : List UInt8
deriving DecidableEq, Repr

/-- How the tags of the core schema begin. -/
def coreTag : String := "tag:yaml.org,2002:"

namespace Tag

/-- A tag of the core schema. -/
def core (name : String) : Tag := ⟨asciiOctets (coreTag ++ name)⟩

/-- The tag that is an exclamation mark alone. -/
def mark : Tag := ⟨asciiOctets "!"⟩

/-- Whether a tag belongs to the application. -/
def isLocal (t : Tag) : Bool :=
  t.octets.head? == some '!'.toUInt8

/-- Whether the octets of a tag encode a text. -/
def isText (t : Tag) : Bool :=
  (String.fromUTF8? ⟨t.octets.toArray⟩).isSome

end Tag

/-! ### Handles -/

/-- The handles of a document, each with how its tags begin. -/
abbrev Handles := List (String × List UInt8)

/-- The handles that need no directive. -/
def Handles.standard : Handles :=
  [("!", asciiOctets "!"), ("!!", asciiOctets coreTag)]

/-- **Resolution.** The tag that a handle and a rest stand for; an empty handle says that the rest
is the whole tag. -/
def Tag.resolve? (handles : Handles) (handle : String) (rest : List UInt8) : Option Tag :=
  if handle = "" then some ⟨rest⟩
  else ((handles ++ Handles.standard).lookup handle).map fun start => ⟨start ++ rest⟩

/-! ### Reading -/

/-- Whether a character may stand in a tag, inside angle brackets or outside. -/
def isTagChar (bracketed : Bool) (c : Char) : Bool :=
  isWordChar c || ";/?:@&=+$.!~*'()".toList.contains c || (bracketed && [',', '[', ']'].contains c)

/-- The number of octets that follow the first octet of a character. -/
def laterOctets? (octet : Nat) : Option Nat :=
  if octet < 0x80 then some 0
  else if octet / 0x20 = 0x6 then some 1
  else if octet / 0x10 = 0xE then some 2
  else if octet / 0x08 = 0x1E then some 3
  else none

/-- The octets still due behind an octet, where `due` ones were due before it. -/
def octetsDue? (due octet : Nat) : Option Nat :=
  match due with
  | 0 => laterOctets? octet
  | n + 1 => if octet / 0x40 = 0x2 then some n else none

/-- The octet that two hexadecimal digits stand for. -/
def octet? (high low : Char) : Option Nat := do
  return 16 * (← Json.hexDigit? high) + (← Json.hexDigit? low)

/-- The octets of a tag up to the first character that cannot stand in one, and what follows. The
octets of a character are all written in the same way; `due` of them are still to come. -/
def scanOctets? (bracketed : Bool) (due : Nat) (done : List UInt8) :
    List Glyph → Option (List UInt8 × List Glyph)
  | [] => if due = 0 then some (done.reverse, []) else none
  | g :: gs =>
    if g.char == '%' then
      match gs with
      | high :: low :: rest => do
        let octet ← octet? high.char low.char
        scanOctets? bracketed (← octetsDue? due octet) (octet.toUInt8 :: done) rest
      | _ => none
    else if due ≠ 0 then none
    else if isTagChar bracketed g.char then
      scanOctets? bracketed 0 (g.char.toUInt8 :: done) gs
    else some (done.reverse, g :: gs)

/-- The octets in front of the first zero. -/
def untilZero (octets : List UInt8) : List UInt8 :=
  octets.takeWhile (· != 0)

/-- A handle of two exclamation marks with a word between them, behind the first mark, and what
follows. -/
def scanHandle? (gs : List Glyph) : Option (String × List Glyph) :=
  let word := (gs.takeWhile fun g => isWordChar g.char).map Glyph.char
  let rest := gs.dropWhile fun g => isWordChar g.char
  if atOneOf ['!'] rest then some (String.ofList ('!' :: word ++ ['!']), rest.drop 1) else none

/-- A tag behind its exclamation mark, as a handle and a rest, and what follows. -/
def scanTagBody? (gs : List Glyph) : Option ((String × List UInt8) × List Glyph) :=
  if atOneOf ['<'] gs then do
    let (octets, rest) ← scanOctets? true 0 [] (gs.drop 1)
    if octets.isEmpty || !atOneOf ['>'] rest then none
    return (("", untilZero octets), rest.drop 1)
  else match scanHandle? gs with
    | some (handle, rest) => do
      let (octets, rest) ← scanOctets? false 0 [] rest
      if octets.isEmpty then none
      return ((handle, untilZero octets), rest)
    | none => do
      let (octets, rest) ← scanOctets? false 0 [] gs
      return (match untilZero octets with
        | [] => ("", Tag.mark.octets)
        | octets => ("!", octets), rest)

/-- A tag behind its exclamation mark, and what follows: a gap, or a comma inside a flow
collection. -/
def scanTag? (inFlow : Bool) (gs : List Glyph) : Option ((String × List UInt8) × List Glyph) := do
  let (tag, rest) ← scanTagBody? gs
  if atGap rest || (inFlow && atOneOf [','] rest) then return (tag, rest) else none

end CondRegions.Yaml
