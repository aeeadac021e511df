import CondRegions.Yaml.Directive
import CondRegions.Yaml.Scalar

/-!
# Tokens of YAML

The text is read from left to right into tokens that make the block structure explicit: a block
opens where an entry or a key stands further right than the block around it, and closes where
something stands further left. A key is known as such only at the colon behind it, so the place of
every scalar that could be a key is remembered, and the colon puts the key token in front of it.
-/

namespace CondRegions.Yaml

/-- How a scalar is written. -/
inductive Style where
  | plain
  | quoted
deriving DecidableEq, Repr

/-- A token. -/
inductive Token where
  /-- A directive in front of a document. -/
  | directive (d : Directive)
  | documentStart
  | documentEnd
  | blockSequence
  | blockMapping
  | blockEnd
  | flowSequenceStart
  | flowSequenceEnd
  | flowMappingStart
  | flowMappingEnd
  /-- A dash in front of an item. -/
  | blockEntry
  /-- A comma. -/
  | flowEntry
  /-- What follows is a key. -/
  | key
  /-- A colon: what follows is a value. -/
  | value
  | alias (name : String)
  | anchor (name : String)
  /-- A tag, as a handle and a rest. -/
  | tag (handle : String) (rest : List UInt8)
  | scalar (style : Style) (text : String)
deriving DecidableEq, Repr

/-- The place of something that could be a key. -/
structure KeyPlace where
  /-- The number of tokens in front of it. -/
  tokens : Nat
  line : Nat
  column : Nat
  offset : Nat
  /-- Whether it must be a key, because it stands at the column of a block mapping. -/
  required : Bool
deriving DecidableEq, Repr

/-- Where the reader stands. -/
structure Reader where
  rest : List Glyph
  tokens : Array Token
  /-- One place for every open flow collection, the innermost first, and one for the blocks
  around. -/
  keys : List (Option KeyPlace)
  /-- The column that the content of the current block must reach. -/
  margin : Nat
  /-- The margins of the blocks around. -/
  margins : List Nat
  /-- Whether a key may start here. -/
  keyAllowed : Bool

namespace Reader

/-- The reader at the start of a text. -/
def start (gs : List Glyph) : Reader :=
  ⟨gs, #[], [none], 0, [], true⟩

/-- Whether the reader is inside a flow collection. -/
def inFlow (r : Reader) : Bool :=
  1 < r.keys.length

/-- Adds a token. -/
def push (r : Reader) (t : Token) : Reader :=
  { r with tokens := r.tokens.push t }

/-- Adds a token at a given place. -/
def insertAt (r : Reader) (i : Nat) (t : Token) : Reader :=
  { r with tokens := r.tokens.insertIdxIfInBounds i t }

/-- Forgets the place that could be a key; it must not have been required. -/
def dropKey? (r : Reader) : Option Reader :=
  match r.keys with
  | some k :: keys => if k.required then none else some { r with keys := none :: keys }
  | _ => some r

/-- Remembers that a key could start at `g`. -/
def saveKey? (r : Reader) (g : Glyph) : Option Reader :=
  if !r.keyAllowed then some r
  else do
    let r ← r.dropKey?
    let place : KeyPlace :=
      ⟨r.tokens.size, g.line, g.column, g.offset, !r.inFlow && r.margin == g.column + 1⟩
    return { r with keys := some place :: r.keys.drop 1 }

/-- The number of bytes that a key may take up to its colon. -/
def maxKeyBytes : Nat := 1024

/-- Forgets the places that are on an earlier line or too far back. -/
def dropStaleKeys? (r : Reader) (g : Glyph) : Option Reader := do
  let keys ← r.keys.mapM fun place =>
    match place with
    | some k =>
      if k.line < g.line || k.offset + maxKeyBytes < g.offset then
        if k.required then none else some none
      else some (some k)
    | none => some none
  return { r with keys }

/-- Opens a block at a column, unless one is open there. The token goes to the place `i`. -/
def openBlock (r : Reader) (column i : Nat) (t : Token) : Reader :=
  if !r.inFlow && r.margin ≤ column then
    { r.insertAt i t with margin := column + 1, margins := r.margin :: r.margins }
  else r

/-- Closes the blocks whose margin is beyond `margin`. -/
def closeBlocks (margin : Nat) (r : Reader) : Reader :=
  if r.inFlow then r else go r r.margins
where
  /-- Closes blocks, the margins around which are given. -/
  go (r : Reader) : List Nat → Reader
    | [] => r
    | m :: ms =>
      if margin < r.margin then go { r.push .blockEnd with margin := m, margins := ms } ms
      else r

/-- Skips blanks, comments and line breaks. A tab may not indent what could be a key. -/
def skipGap (inFlow : Bool) (keyAllowed inComment : Bool) : List Glyph → Bool × List Glyph
  | [] => (keyAllowed, [])
  | g :: gs =>
    if isBreak g.char then skipGap inFlow (keyAllowed || !inFlow) false gs
    else if inComment then skipGap inFlow keyAllowed true gs
    else if g.char == '#' then skipGap inFlow keyAllowed true gs
    else if g.char == ' ' || (g.char == '\t' && (inFlow || !keyAllowed)) ||
        (g.column == 0 && g.char == '\uFEFF') then
      skipGap inFlow keyAllowed false gs
    else (keyAllowed, g :: gs)

/-! ### Names -/

/-- The name of an anchor or alias, and what follows. -/
def scanAnchor? (gs : List Glyph) : Option (String × List Glyph) :=
  let name := (gs.takeWhile fun g => isWordChar g.char).map Glyph.char
  let rest := gs.dropWhile fun g => isWordChar g.char
  if !name.isEmpty &&
      (atGap rest || atOneOf ['?', ':', ',', ']', '\x7d', '%', '@', '\x60'] rest) then
    some (String.ofList name, rest)
  else none

/-! ### One token -/

/-- A bracket that opens a flow collection. -/
def openFlow? (r : Reader) (g : Glyph) (gs : List Glyph) (t : Token) : Option Reader := do
  let r ← r.saveKey? g
  return { r.push t with rest := gs, keys := none :: r.keys, keyAllowed := true }

/-- A bracket that closes a flow collection. -/
def closeFlow? (r : Reader) (gs : List Glyph) (t : Token) : Option Reader := do
  let r ← r.dropKey?
  let keys := match r.keys with
    | _ :: k :: ks => k :: ks
    | ks => ks
  return { r.push t with rest := gs, keys, keyAllowed := false }

/-- A comma. -/
def flowEntry? (r : Reader) (gs : List Glyph) : Option Reader := do
  let r ← r.dropKey?
  return { r.push .flowEntry with rest := gs, keyAllowed := true }

/-- A dash in front of an item. -/
def blockEntry? (r : Reader) (g : Glyph) (gs : List Glyph) : Option Reader := do
  if !r.inFlow && !r.keyAllowed then none
  let r ← (r.openBlock g.column r.tokens.size .blockSequence).dropKey?
  return { r.push .blockEntry with rest := gs, keyAllowed := true }

/-- A question mark in front of a key. -/
def explicitKey? (r : Reader) (g : Glyph) (gs : List Glyph) : Option Reader := do
  if !r.inFlow && !r.keyAllowed then none
  let r ← (r.openBlock g.column r.tokens.size .blockMapping).dropKey?
  return { r.push .key with rest := gs, keyAllowed := !r.inFlow }

/-- A colon in front of a value. It makes a key of what could be one in front of it. -/
def value? (r : Reader) (g : Glyph) (gs : List Glyph) : Option Reader :=
  match r.keys with
  | some k :: keys =>
    let r := (r.insertAt k.tokens .key).openBlock k.column k.tokens .blockMapping
    some { r.push .value with rest := gs, keys := none :: keys, keyAllowed := false }
  | _ =>
    if !r.inFlow && !r.keyAllowed then none
    else
      let r := r.openBlock g.column r.tokens.size .blockMapping
      some { r.push .value with rest := gs, keyAllowed := !r.inFlow }

/-- An alias, or an anchor or a tag in front of a node. -/
def named? {α : Type} (r : Reader) (g : Glyph) (token : α → Token)
    (scanned : Option (α × List Glyph)) : Option Reader := do
  let r ← r.saveKey? g
  let (name, rest) ← scanned
  return { r.push (token name) with rest, keyAllowed := false }

/-- A scalar that could be a key. -/
def scalar? (r : Reader) (g : Glyph) (style : Style) (scanned : Option Scanned) :
    Option Reader := do
  let r ← r.saveKey? g
  let s ← scanned
  return { r.push (.scalar style s.text) with rest := s.rest, keyAllowed := s.brokeLine }

/-- A block scalar. -/
def block? (r : Reader) (folded : Bool) (gs : List Glyph) : Option Reader := do
  let r ← r.dropKey?
  let s ← scanBlock? folded r.margin gs
  return { r.push (.scalar .quoted s.text) with rest := s.rest, keyAllowed := true }

/-- A mark between documents, of three characters. -/
def documentMark? (r : Reader) (gs : List Glyph) (t : Token) : Option Reader := do
  let r ← (r.closeBlocks 0).dropKey?
  return { r.push t with rest := gs.drop 3, keyAllowed := false }

/-- A line with a directive, behind its percent sign. -/
def directive? (r : Reader) (gs : List Glyph) : Option Reader := do
  let r ← (r.closeBlocks 0).dropKey?
  let (d, rest) ← scanDirective? gs
  return { r.push (.directive d) with rest, keyAllowed := false }

/-- The characters that have a meaning of their own at the start of a token. -/
def indicators : List Char :=
  ['-', '?', ':', ',', '[', ']', '\x7b', '\x7d', '#', '&', '*', '!', '|', '>', '\'', '"', '%', '@',
    '\x60', '\t']

/-- Whether a plain scalar can start at `g`. -/
def startsPlain (inFlow : Bool) (g : Glyph) (gs : List Glyph) : Bool :=
  !indicators.contains g.char ||
    (g.char == '-' && !atOneOf [' ', '\t'] gs) ||
    (!inFlow && (g.char == '?' || g.char == ':') && !atGap gs)

/-- The token that starts at `g`. -/
def fetch? (r : Reader) (g : Glyph) (gs : List Glyph) : Option Reader :=
  let c := g.char
  if g.column == 0 && c == '%' then r.directive? gs
  else if atDocumentMark '-' (g :: gs) then r.documentMark? (g :: gs) .documentStart
  else if atDocumentMark '.' (g :: gs) then r.documentMark? (g :: gs) .documentEnd
  else if c == '[' then r.openFlow? g gs .flowSequenceStart
  else if c == '\x7b' then r.openFlow? g gs .flowMappingStart
  else if c == ']' then r.closeFlow? gs .flowSequenceEnd
  else if c == '\x7d' then r.closeFlow? gs .flowMappingEnd
  else if c == ',' then r.flowEntry? gs
  else if c == '-' && atGap gs then r.blockEntry? g gs
  else if c == '?' && (r.inFlow || atGap gs) then r.explicitKey? g gs
  else if c == ':' && (r.inFlow || atGap gs) then r.value? g gs
  else if c == '*' then r.named? g .alias (scanAnchor? gs)
  else if c == '&' then r.named? g .anchor (scanAnchor? gs)
  else if c == '!' then r.named? g (fun (handle, rest) => .tag handle rest) (scanTag? r.inFlow gs)
  else if c == '|' && !r.inFlow then r.block? false gs
  else if c == '>' && !r.inFlow then r.block? true gs
  else if c == '\'' then r.scalar? g .quoted (scanSingle? .none [] gs)
  else if c == '"' then r.scalar? g .quoted (scanDouble? .outside false .none [] gs)
  else if startsPlain r.inFlow g gs then
    r.scalar? g .plain (scanPlain? r.inFlow r.margin false .none [] (g :: gs))
  else none

/-- The reader behind the next token; nothing is left to read at the end. -/
def next? (r : Reader) : Option Reader :=
  let (keyAllowed, rest) := skipGap r.inFlow r.keyAllowed false r.rest
  match rest with
  | [] => ({ r with rest := [], keyAllowed }.closeBlocks 0).dropKey?
  | g :: gs => do
    let r ← { r with rest, keyAllowed }.dropStaleKeys? g
    (r.closeBlocks (g.column + 1)).fetch? g gs

/-- All tokens; every token takes at least one character, so as many steps as there are characters,
and one for the end, suffice. -/
def readAll? : Nat → Reader → Option (Array Token)
  | 0, _ => none
  | n + 1, r => do
    let r ← r.next?
    if r.rest.isEmpty then
      let r ← r.next?
      return r.tokens
    else readAll? n r

end Reader

/-- **Tokens.** The tokens of a text. -/
def Token.ofText? (text : String) : Option (List Token) := do
  let gs ← glyphs? text
  let tokens ← (Reader.start gs).readAll? (gs.length + 1)
  return tokens.toList

end CondRegions.Yaml
