import CondRegions.Number.Reader
import CondRegions.Yaml.Tag

/-!
# Directives of YAML

Lines in front of a document that begin with a percent sign: one says which version of YAML the
document is written in, the others add handles of tags. Versions 1.1 and 1.2 are understood. The
version may be said only once, and a handle added only once.

* `scanDirective?` — a line with a directive;
* `Handles.ofDirectives?` — the handles that the directives of a document add.
-/

namespace CondRegions.Yaml

/-- A directive. -/
inductive Directive where
  | version (major minor : Nat)
  /-- A handle, and how its tags begin. -/
  | handle (name : String) (start : List UInt8)
deriving DecidableEq, Repr

/-- A number of a version, of at most nine digits, and what follows. -/
def scanVersionNumber? (gs : List Glyph) : Option (Nat × List Glyph) :=
  let digits := (gs.takeWhile fun g => Number.isDigit g.char).map Glyph.char
  if digits.isEmpty || 9 < digits.length then none
  else some (Number.natOfDigits digits, gs.drop digits.length)

/-- A version, behind the name of the directive, and what follows. -/
def scanVersion? (gs : List Glyph) : Option (Directive × List Glyph) := do
  let (major, rest) ← scanVersionNumber? (skipBlanks gs)
  if !atOneOf ['.'] rest then none
  let (minor, rest) ← scanVersionNumber? (rest.drop 1)
  return (.version major minor, rest)

/-- A handle and how its tags begin, behind the name of the directive, and what follows. -/
def scanHandleDirective? (gs : List Glyph) : Option (Directive × List Glyph) := do
  let body := skipBlanks gs
  if !atOneOf ['!'] body then none
  let (name, rest) := (scanHandle? (body.drop 1)).getD ("!", body.drop 1)
  if !atOneOf [' ', '\t'] rest then none
  let (start, rest) ← scanOctets? true 0 [] (skipBlanks rest)
  if start.isEmpty || !atGap rest then none
  return (.handle name (untilZero start), rest)

/-- A directive behind its percent sign, and what follows its line. -/
def scanDirective? (gs : List Glyph) : Option (Directive × List Glyph) := do
  let name := String.ofList ((gs.takeWhile fun g => isWordChar g.char).map Glyph.char)
  let body := gs.dropWhile fun g => isWordChar g.char
  if !atGap body then none
  let (directive, rest) ←
    if name = "YAML" then scanVersion? body
    else if name = "TAG" then scanHandleDirective? body
    else none
  return (directive, ← nextLine? rest)

/-- Whether a version is understood. -/
def isKnownVersion (major minor : Nat) : Bool :=
  major == 1 && (minor == 1 || minor == 2)

/-- **Handles.** The handles that directives add to those given; `versioned` says whether a version
was given in front of them. -/
def Handles.ofDirectives? (versioned : Bool) (handles : Handles) :
    List Directive → Option Handles
  | [] => some handles
  | .version major minor :: ds =>
    if versioned || !isKnownVersion major minor then none else ofDirectives? true handles ds
  | .handle name start :: ds =>
    if (handles.lookup name).isSome then none
    else ofDirectives? versioned ((name, start) :: handles) ds

end CondRegions.Yaml
