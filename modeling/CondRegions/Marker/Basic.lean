import CondRegions.Span

/-!
# Markers

A marker is a comment that opens or closes a conditional region. It is written in one of three
comment styles, the *families*, and carries one of six directives, its *kind*.
-/

namespace CondRegions

/-- A comment style. -/
inductive Family where
  /-- From two slashes to the end of the line. -/
  | line
  /-- Between `<!--` and `-->`. -/
  | html
  /-- Between `/*` and `*/`. -/
  | block
deriving DecidableEq, Repr

namespace Family

/-- The name of a style. -/
def name : Family → String
  | .line => "line-comment"
  | .html => "html-comment"
  | .block => "block-comment"

/-- The text that opens a comment. -/
def opener : Family → List Char
  | .line => "//".toList
  | .html => "<!--".toList
  | .block => "/*".toList

/-- The text that closes a comment, where the end of the line does not. -/
def closer? : Family → Option (List Char)
  | .line => none
  | .html => some "-->".toList
  | .block => some "*/".toList

/-- **Pass order.** The order in which the styles are dealt with; a later style sees the text that
the earlier ones leave. -/
def passOrder : List Family := [.html, .line, .block]

end Family

/-- The directive of a marker. -/
inductive Kind where
  | ifdef
  | ifndef
  | regionIfdef
  | regionIfndef
  | endif
  | endregionEndif
deriving DecidableEq, Repr

namespace Kind

/-- The words of a directive. -/
def directive : Kind → String
  | .ifdef => "ifdef"
  | .ifndef => "ifndef"
  | .regionIfdef => "region ifdef"
  | .regionIfndef => "region ifndef"
  | .endif => "endif"
  | .endregionEndif => "endregion endif"

/-- A directive as it is shown. -/
def text (k : Kind) : String :=
  "#" ++ k.directive

/-- Whether the condition's outcome is inverted. -/
def isNegated : Kind → Bool
  | .ifndef | .regionIfndef => true
  | _ => false

/-- The directive made of the given words, whatever white space stands around them. -/
def ofDirective? (text : String) : Option Kind :=
  match (Text.words text.toList).map String.ofList with
  | ["ifdef"] => some .ifdef
  | ["ifndef"] => some .ifndef
  | ["region", "ifdef"] => some .regionIfdef
  | ["region", "ifndef"] => some .regionIfndef
  | ["endif"] => some .endif
  | ["endregion", "endif"] => some .endregionEndif
  | _ => none

end Kind

/-- A marker in a text. -/
structure Marker where
  kind : Kind
  /-- The whole marker, from the start of its line, its line break included. -/
  span : Span
  /-- The condition of a start marker, with its place. -/
  condition : Option (Spanned String)
deriving DecidableEq, Repr

end CondRegions
