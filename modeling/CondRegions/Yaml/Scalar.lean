import CondRegions.Json.Reader
import CondRegions.Yaml.Glyph

/-!
# Scalars of YAML

The three ways to write a scalar: plain, in quotes, and as a block. Plain and quoted scalars may run
over several lines, which are *folded*: one line break becomes a blank, and of several the first is
dropped. A literal block keeps its line breaks, a folded block folds those between lines that are
not indented further.
-/

namespace CondRegions.Yaml

/-! ### Folding -/

/-- The white space read since the last character of a scalar. -/
structure Pending where
  /-- Blanks on the current line, the last one first. -/
  blanks : List Char
  /-- Line breaks, the last one first. -/
  breaks : List Char
deriving DecidableEq, Repr

/-- No white space. -/
def Pending.none : Pending := ⟨[], []⟩

/-- The characters that line breaks fold into, the last one first. -/
def foldBreaks (breaks : List Char) : List Char :=
  match breaks.reverse with
  | [] => []
  | '\n' :: [] => [' ']
  | '\n' :: more => more.reverse
  | _ => breaks

/-- The characters that white space stands for inside a scalar, the last one first. -/
def Pending.text (p : Pending) : List Char :=
  if p.breaks.isEmpty then p.blanks else foldBreaks p.breaks

/-- White space with one more blank; blanks at the start of a line do not count. -/
def Pending.blank (p : Pending) (c : Char) : Pending :=
  if p.breaks.isEmpty then { p with blanks := c :: p.blanks } else p

/-- White space with one more line break. -/
def Pending.lineBreak (p : Pending) (c : Char) : Pending :=
  ⟨[], c :: p.breaks⟩

/-- A scalar that has been read: its text, whether it ended behind a line break, and what
follows. -/
structure Scanned where
  text : String
  brokeLine : Bool
  rest : List Glyph

/-! ### Plain scalars -/

/-- Whether a plain scalar ends before the glyph `g`. -/
def endsPlain (inFlow : Bool) (g : Glyph) (rest : List Glyph) : Bool :=
  (g.char == ':' && atGap rest) || (inFlow && [',', '[', ']', '\x7b', '\x7d'].contains g.char)

/-- Whether the glyph `g` cannot be part of a plain scalar nor end it. -/
def breaksPlain (inFlow : Bool) (g : Glyph) (rest : List Glyph) : Bool :=
  inFlow && g.char == ':' && atOneOf [',', '?', '[', ']', '\x7b', '\x7d'] rest

/-- Whether a plain scalar ends before a word that starts with the glyph `g`: it stands left of the
margin, or it is a document mark or a comment. -/
def endsBeforeWord (inFlow : Bool) (margin : Nat) (pending : Pending) (g : Glyph)
    (rest : List Glyph) : Bool :=
  (!inFlow && !pending.breaks.isEmpty && g.column < margin) || atAnyDocumentMark (g :: rest) ||
    g.char == '#'

/-- A plain scalar that ends behind the characters `done`, the last one first. -/
def Scanned.plain (pending : Pending) (done : List Char) (rest : List Glyph) : Scanned :=
  ⟨String.ofList done.reverse, !pending.breaks.isEmpty, rest⟩

/-- A plain scalar. `margin` is the column that its later lines must reach outside flow collections;
`inWord` says whether a character of the scalar stands right before; `done` are the characters read,
the last one first. -/
def scanPlain? (inFlow : Bool) (margin : Nat) (inWord : Bool) (pending : Pending)
    (done : List Char) : List Glyph → Option Scanned
  | [] => some (.plain pending done [])
  | g :: gs =>
    if isBreak g.char then
      scanPlain? inFlow margin false (pending.lineBreak g.char) done gs
    else if isSpaceOrTab g.char then
      if !pending.breaks.isEmpty && g.char == '\t' && g.column < margin then none
      else scanPlain? inFlow margin false (pending.blank g.char) done gs
    else if !inWord && endsBeforeWord inFlow margin pending g gs then
      some (.plain pending done (g :: gs))
    else if breaksPlain inFlow g gs then none
    else if endsPlain inFlow g gs then some (.plain pending done (g :: gs))
    else scanPlain? inFlow margin true .none (g.char :: pending.text ++ done) gs

/-! ### Quoted scalars -/

/-- A scalar in single quotes, behind the opening quote; two quotes stand for one. -/
def scanSingle? (pending : Pending) (done : List Char) : List Glyph → Option Scanned
  | [] => none
  | [g] =>
    if g.char == '\'' then
      some ⟨String.ofList (pending.text ++ done).reverse, false, []⟩
    else none
  | g :: h :: gs =>
    if atAnyDocumentMark (g :: h :: gs) then none
    else if isBreak g.char then scanSingle? (pending.lineBreak g.char) done (h :: gs)
    else if isSpaceOrTab g.char then scanSingle? (pending.blank g.char) done (h :: gs)
    else if g.char == '\'' then
      if h.char == '\'' then scanSingle? .none ('\'' :: pending.text ++ done) gs
      else some ⟨String.ofList (pending.text ++ done).reverse, false, h :: gs⟩
    else scanSingle? .none (g.char :: pending.text ++ done) (h :: gs)

/-- What a backslash and one character stand for. -/
def unescape? (c : Char) : Option Char :=
  match c with
  | '0' => some '\x00'
  | 'a' => some '\x07'
  | 'b' => some '\x08'
  | 't' => some '\t'
  | '\t' => some '\t'
  | 'n' => some '\n'
  | 'v' => some '\x0b'
  | 'f' => some '\x0c'
  | 'r' => some '\r'
  | 'e' => some '\x1b'
  | ' ' => some ' '
  | '"' => some '"'
  | '/' => some '/'
  | '\\' => some '\\'
  | 'N' => some '\u0085'
  | '_' => some '\u00A0'
  | 'L' => some '\u2028'
  | 'P' => some '\u2029'
  | _ => none

/-- The number of hexadecimal digits behind a backslash and one character. -/
def escapeWidth? (c : Char) : Option Nat :=
  match c with
  | 'x' => some 2
  | 'u' => some 4
  | 'U' => some 8
  | _ => none

/-- Where the reader of a double quoted scalar stands. -/
inductive Escape where
  /-- Outside an escape. -/
  | outside
  /-- Behind a backslash. -/
  | started
  /-- Inside a code point: the digits still to come, and its value so far. -/
  | code (left value : Nat)

/-- The character with a given code point. -/
def charOfCode? (n : Nat) : Option Char :=
  if n.isValidChar then some (Char.ofNat n) else none

/-- A scalar in double quotes, behind the opening quote. A backslash before a line break joins the
lines without a blank. -/
def scanDouble? (escape : Escape) (joined : Bool) (pending : Pending) (done : List Char) :
    List Glyph → Option Scanned
  | [] => none
  | g :: gs =>
    match escape with
    | .started =>
      if isBreak g.char then scanDouble? .outside true .none (pending.text ++ done) gs
      else match unescape? g.char, escapeWidth? g.char with
        | some c, _ => scanDouble? .outside false .none (c :: pending.text ++ done) gs
        | none, some width => scanDouble? (.code width 0) false pending done gs
        | none, none => none
    | .code left value =>
      match Json.hexDigit? g.char, left with
      | none, _ | _, 0 => none
      | some d, 1 =>
        match charOfCode? (16 * value + d) with
        | some c => scanDouble? .outside false .none (c :: pending.text ++ done) gs
        | none => none
      | some d, n + 2 => scanDouble? (.code (n + 1) (16 * value + d)) false pending done gs
    | .outside =>
      if atAnyDocumentMark (g :: gs) then none
      else if isBreak g.char then
        -- Behind a joined line the breaks stand for themselves.
        if joined then scanDouble? .outside true .none (g.char :: done) gs
        else scanDouble? .outside false (pending.lineBreak g.char) done gs
      else if isSpaceOrTab g.char then
        if joined then scanDouble? .outside true .none done gs
        else scanDouble? .outside false (pending.blank g.char) done gs
      else if g.char == '"' then
        some ⟨String.ofList (pending.text ++ done).reverse, false, gs⟩
      else if g.char == '\\' then scanDouble? .started false pending done gs
      else scanDouble? .outside false .none (g.char :: pending.text ++ done) gs

/-! ### Block scalars -/

/-- What happens to the line breaks at the end of a block scalar. -/
inductive Chomping where
  | strip
  | clip
  | keep
deriving DecidableEq, Repr

/-- The indicators of a block scalar: its chomping and its explicit indentation. -/
structure BlockHeader where
  chomping : Chomping
  indent : Option Nat
deriving DecidableEq, Repr

/-- A chomping indicator. -/
def chomping? : Glyph → Option Chomping
  | g => if g.char == '+' then some .keep else if g.char == '-' then some .strip else none

/-- An indentation indicator; the outer option is empty for a zero. -/
def indentIndicator? (g : Glyph) : Option Nat :=
  if '1' ≤ g.char && g.char ≤ '9' then some (g.char.toNat - '0'.toNat) else none

/-- The indicators at the start of a text, in either order, and what follows. -/
def takeHeader (gs : List Glyph) : BlockHeader × List Glyph :=
  match gs with
  | [] => (⟨.clip, none⟩, [])
  | g :: rest =>
    match chomping? g, indentIndicator? g with
    | some c, _ =>
      match rest with
      | [] => (⟨c, none⟩, [])
      | h :: more =>
        match indentIndicator? h with
        | some n => (⟨c, some n⟩, more)
        | none => (⟨c, none⟩, h :: more)
    | none, some n =>
      match rest with
      | [] => (⟨.clip, some n⟩, [])
      | h :: more =>
        match chomping? h with
        | some c => (⟨c, some n⟩, more)
        | none => (⟨.clip, some n⟩, h :: more)
    | none, none => (⟨.clip, none⟩, g :: rest)

/-- The lines of a text, each with its line break. -/
def glyphLines : List Glyph → List (List Glyph)
  | [] => []
  | g :: gs =>
    if isBreak g.char then [g] :: glyphLines gs
    else match glyphLines gs with
      | [] => [[g]]
      | l :: ls => (g :: l) :: ls

/-- Whether a line is made of spaces only. -/
def isSpaceLine (line : List Glyph) : Bool :=
  line.all fun g => g.char == ' ' || isBreak g.char

/-- The number of spaces at the start of a line. -/
def leadingSpaces (line : List Glyph) : Nat :=
  (line.takeWhile fun g => g.char == ' ').length

/-- The indentation of a block whose header gives none: that of its first line with text, or of a
longer line of spaces before it, and at least `least`. -/
def detectIndent (least : Nat) (lines : List (List Glyph)) : Nat :=
  let spaces := lines.takeWhile isSpaceLine
  let first := (lines.dropWhile isSpaceLine).take 1
  (spaces ++ first).foldl (fun n line => max n (leadingSpaces line)) least

/-- A line of a block scalar. -/
inductive BlockLine where
  /-- A line break alone. -/
  | empty (lineBreak : Char)
  /-- Text, and the line break behind it if there is one. -/
  | text (chars : List Char) (lineBreak : Option Char)

/-- What a line is to a block of the given indentation: a line of the block, a line behind it, or a
line that is indented by a tab. -/
def blockLine? (indent : Nat) (line : List Glyph) : Option (Option BlockLine) :=
  let spaces := min indent (leadingSpaces line)
  match line.drop spaces with
  | [] => some none
  | g :: gs =>
    if isBreak g.char then some (some (.empty g.char))
    else if spaces < indent then if g.char == '\t' then none else some none
    else
      let chars := (g :: gs).map Glyph.char
      some (some (.text (chars.filter (!isBreak ·)) (chars.find? isBreak)))

/-- The lines of a block, and the lines behind it. -/
def takeBlock? (indent : Nat) :
    List (List Glyph) → Option (List BlockLine × List (List Glyph))
  | [] => some ([], [])
  | line :: lines =>
    match blockLine? indent line with
    | none => none
    | some none => some ([], line :: lines)
    | some (some l) => (takeBlock? indent lines).map fun (ls, rest) => (l :: ls, rest)

/-- The text of a block. `last` is the line break behind the last line of text, `more` are the
breaks behind it, the last one first, and `indented` says whether that line began with a blank. -/
def blockText (folded : Bool) (chomping : Chomping) (last : Option Char) (more : List Char)
    (indented : Bool) (done : List Char) : List BlockLine → String
  | [] =>
    let done := match chomping, last with
      | .strip, _ | _, none => done
      | _, some c => c :: done
    String.ofList (if chomping == .keep then more ++ done else done).reverse
  | .empty c :: lines => blockText folded chomping last (c :: more) indented done lines
  | .text cs lineBreak :: lines =>
    let deeper := (cs.head?).any isSpaceOrTab
    let joint :=
      if folded && last == some '\n' && !indented && !deeper then
        if more.isEmpty then [' '] else []
      else last.toList
    blockText folded chomping lineBreak [] deeper (cs.reverse ++ more ++ joint ++ done) lines

/-- Whether the first line with text has a tab behind its spaces, so that its indentation is not
clear. -/
def startsWithTab (lines : List (List Glyph)) : Bool :=
  match lines.dropWhile isSpaceLine with
  | [] => false
  | line :: _ => atOneOf ['\t'] (line.dropWhile fun g => g.char == ' ')

/-- A block scalar, behind its first character; `margin` is the least column of its text. -/
def scanBlock? (folded : Bool) (margin : Nat) (gs : List Glyph) : Option Scanned := do
  let (header, rest) := takeHeader gs
  let lines := glyphLines (← nextLine? rest)
  let indent ← match header.indent with
    | some n => some (margin - 1 + n)
    | none => if startsWithTab lines then none else some (detectIndent (max margin 1) lines)
  let (block, rest) ← takeBlock? indent lines
  return ⟨blockText folded header.chomping none [] false [] block, true, rest.flatten⟩

end CondRegions.Yaml
