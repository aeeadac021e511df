/-!
# Characters with their places

Block structure in YAML is a matter of columns, so a text is read as a list of *glyphs*: characters
that know their line and column. A carriage return, with or without a line feed, and the next-line
character become line feeds on the way. A byte order mark is a character like any other here: it
takes up a column.
-/

namespace CondRegions.Yaml

/-- A character at its place. -/
structure Glyph where
  char : Char
  line : Nat
  column : Nat
  /-- The number of bytes before it on its line. -/
  offset : Nat
deriving DecidableEq, Repr

/-- Whether a character ends a line. -/
def isBreak (c : Char) : Bool :=
  c == '\n' || c == '\u2028' || c == '\u2029'

/-- Whether a character is a space or a tab. -/
def isSpaceOrTab (c : Char) : Bool :=
  c == ' ' || c == '\t'

/-- Whether a character may stand in the names of anchors, handles and directives. -/
def isWordChar (c : Char) : Bool :=
  c.isAlphanum || c == '_' || c == '-'

/-- Whether a character may occur in a text at all. -/
def isAllowed (c : Char) : Bool :=
  let n := c.toNat
  n == 0x09 || n == 0x0A || n == 0x0D || (0x20 ≤ n && n ≤ 0x7E) || n == 0x85 ||
    (0xA0 ≤ n && n ≤ 0xD7FF) || (0xE000 ≤ n && n ≤ 0xFFFD) || 0x10000 ≤ n

/-- The text with all line breaks of one character written as line feeds. -/
def unifyBreaks : List Char → List Char
  | '\r' :: '\n' :: cs => '\n' :: unifyBreaks cs
  | '\r' :: cs => '\n' :: unifyBreaks cs
  | '\u0085' :: cs => '\n' :: unifyBreaks cs
  | c :: cs => c :: unifyBreaks cs
  | [] => []

/-- The characters of a text with their places, the first of which is given. -/
def place (line column offset : Nat) : List Char → List Glyph
  | [] => []
  | c :: cs =>
    ⟨c, line, column, offset⟩ ::
      if isBreak c then place (line + 1) 0 0 cs
      else place line (column + 1) (offset + c.utf8Size) cs

/-- The glyphs of a text; none if a character is not allowed. -/
def glyphs? (text : String) : Option (List Glyph) :=
  let cs := text.toList
  if cs.all isAllowed then some (place 0 0 0 (unifyBreaks cs)) else none

/-! ### Looking ahead -/

/-- Whether nothing, a blank or a line break comes next. -/
def atGap : List Glyph → Bool
  | [] => true
  | g :: _ => isSpaceOrTab g.char || isBreak g.char

/-- Whether the next character is one of the given ones. -/
def atOneOf (cs : List Char) : List Glyph → Bool
  | [] => false
  | g :: _ => cs.contains g.char

/-- What follows the blanks that come next. -/
def skipBlanks (gs : List Glyph) : List Glyph :=
  gs.dropWhile fun g => isSpaceOrTab g.char

/-- What follows the current line, the rest of which must be blank or a comment. -/
def nextLine? (gs : List Glyph) : Option (List Glyph) :=
  let rest := skipBlanks gs
  let rest := if atOneOf ['#'] rest then rest.dropWhile fun g => !isBreak g.char else rest
  match rest with
  | [] => some []
  | g :: more => if isBreak g.char then some more else none

/-- Whether a document mark comes next: three dashes or three points at the start of a line, with a
gap behind. -/
def atDocumentMark (mark : Char) : List Glyph → Bool
  | a :: b :: c :: rest =>
    a.column == 0 && a.char == mark && b.char == mark && c.char == mark && atGap rest
  | _ => false

/-- Whether a document mark of either sort comes next. -/
def atAnyDocumentMark (gs : List Glyph) : Bool :=
  atDocumentMark '-' gs || atDocumentMark '.' gs

end CondRegions.Yaml
