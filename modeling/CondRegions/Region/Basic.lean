import CondRegions.Diagnostic
import CondRegions.Marker.Locate

/-!
# Regions

A region is a start marker with the end marker that closes it. Its condition decides whether the
text between the two is kept.
-/

namespace CondRegions

/-- A region of a text. -/
structure Region where
  kind : Kind
  condition : String
  /-- From the start of the start marker to the end of the end marker. -/
  span : Span
  /-- What stands between the two markers. -/
  inner : Span
  /-- The number of regions around it. -/
  level : Nat
  /-- Whether the text between the markers is kept. -/
  result : Bool
deriving DecidableEq, Repr

namespace Region

/-- The text of a region, markers included. -/
def fullText (r : Region) (text : List Char) : List Char :=
  r.span.extract text

/-- The text between the markers of a region. -/
def innerText (r : Region) (text : List Char) : List Char :=
  r.inner.extract text

/-- The order of regions in a list: by start. -/
def startsNoLater (r s : Region) : Bool :=
  r.span.start ≤ s.span.start

/-- Regions in the order of their starts; regions with one start keep their order. -/
def sort (rs : List Region) : List Region :=
  rs.mergeSort startsNoLater

end Region

namespace Condition

/-- **Outcome.** Whether a condition keeps the region of a marker with the given directive. -/
def holds (kind : Kind) (text : String) (defs : Definitions) : Except SyntaxError Bool :=
  (value text defs).map fun v => v.isTruthy != kind.isNegated

end Condition

/-! ### Conditions of markers -/

namespace Marker

/-- Whether a start marker keeps its region. A condition that is missing or malformed does not. -/
def keeps (defs : Definitions) (m : Marker) : Bool :=
  match m.condition with
  | none => false
  | some c =>
    match Condition.holds m.kind c.value defs with
    | .ok result => result
    | .error _ => false

/-- What is wrong with the condition of a start marker, placed in the text of the marker. -/
def conditionDiagnostic? (source : Source) (m : Marker) : Option Diagnostic :=
  match m.condition with
  | none => none
  | some c =>
    match Condition.parse c.value with
    | .ok _ => none
    | .error e =>
      some ((Diagnostic.ofSyntaxError "condition" c.value e).within source c.span.start)

end Marker

end CondRegions
