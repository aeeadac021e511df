import CondRegions.Region.Basic

/-!
# Resolving regions

`Pairing.pair` walks through the start markers in order, with the end markers that are left and a
stack of start markers still open. A start marker whose next end marker comes before the next start
marker is closed by it; the end markers that follow, up to the next start marker, close what is open
on the stack.

The lists need not come from a text: whatever they are, the walk gives a pairing or an error.
`resolve` turns pairings into regions and evaluates their conditions.
-/

namespace CondRegions

/-- A start marker with the end marker that closes it. -/
structure Pairing where
  opening : Marker
  closing : Marker
  /-- The number of start markers open around it. -/
  level : Nat
deriving DecidableEq, Repr

/-- Why markers cannot be paired. -/
inductive PairingError where
  /-- A start marker is never closed. -/
  | unclosed (opening : Marker)
  /-- An end marker closes nothing. -/
  | stray (closing : Marker)
deriving DecidableEq, Repr

namespace Pairing

/-- Whether `e` stands after the start of the next start marker, if there is one. -/
def isBehind (next : Option Marker) (e : Marker) : Bool :=
  next.any fun n => n.span.start < e.span.start

/-- Whether the next start marker, if there is one, stands behind the start of `e`. -/
def isBefore (e : Marker) (next : Option Marker) : Bool :=
  next.all fun n => e.span.start < n.span.start

/-- What is left after some open start markers have been closed. -/
structure Cascade where
  closed : List Pairing
  ends : List Marker
  opened : List Marker

/-- Closes open start markers, the innermost first, by the end markers up to the next start
marker. -/
def cascade (next : Option Marker) (opened : List Marker) :
    List Marker → Except PairingError Cascade
  | [] => .ok ⟨[], [], opened⟩
  | e :: ends =>
    if isBehind next e then .ok ⟨[], e :: ends, opened⟩
    else match opened with
      | [] => .error (.stray e)
      | o :: os =>
        (cascade next os ends).map fun c => { c with closed := ⟨o, e, os.length⟩ :: c.closed }

/-- **Pairing.** The pairings of start markers with end markers, `opened` being the start markers
still open, the innermost first. -/
def pair (opened : List Marker) : List Marker → List Marker → Except PairingError (List Pairing)
  | [], ends =>
    match opened.getLast?, ends with
    | some o, _ => .error (.unclosed o)
    | none, e :: _ => .error (.stray e)
    | none, [] => .ok []
  | s :: _, [] => .error (.unclosed s)
  | s :: starts, e :: ends =>
    if e.span.start < s.span.stop then .error (.stray e)
    else if isBefore e starts.head? then do
      let c ← cascade starts.head? opened ends
      let later ← pair c.opened starts c.ends
      return ⟨s, e, opened.length⟩ :: c.closed ++ later
    else pair (s :: opened) starts (e :: ends)

/-- The region of a pairing. -/
def toRegion (defs : Definitions) (p : Pairing) : Region where
  kind := p.opening.kind
  condition := (p.opening.condition.map (·.value)).getD ""
  span := ⟨p.opening.span.start, p.closing.span.stop⟩
  inner := ⟨p.opening.span.stop, p.closing.span.start⟩
  level := p.level
  result := p.opening.keeps defs

end Pairing

/-- The diagnostic of markers that cannot be paired. -/
def PairingError.toDiagnostic (family : Family) (source : Source) : PairingError → Diagnostic
  | .unclosed m => ⟨.unclosedRegion family source.name, "markers", source, m.span⟩
  | .stray m => ⟨.strayEndMarker family source.name, "markers", source, m.span⟩

/-- The regions of one style, and what is wrong with their conditions. -/
structure Resolution where
  /-- In the order of their starts. -/
  regions : List Region
  diagnostics : List Diagnostic
deriving DecidableEq, Repr

/-- The diagnostic of a style with unequal numbers of start and end markers. It points to the first
start marker, or to the first end marker if there is no start marker. -/
def imbalance (family : Family) (ms : Markers) (source : Source) : Diagnostic :=
  let first := (ms.starts.head?.or ms.ends.head?).map (·.span)
  ⟨.imbalancedMarkers family source.name ms.starts.length ms.ends.length, "markers", source,
    first.getD ⟨0, 0⟩⟩

/-- **Resolving.** The regions that the markers of one style form. A condition that is malformed is
reported and excludes its region; markers that cannot be paired are an error. -/
def resolve (family : Family) (ms : Markers) (defs : Definitions) (source : Source) :
    Except Diagnostic Resolution :=
  if ms.starts.length ≠ ms.ends.length then .error (imbalance family ms source)
  else match Pairing.pair [] ms.starts ms.ends with
    | .error e => .error (e.toDiagnostic family source)
    | .ok pairings => .ok {
        regions := Region.sort (pairings.map (Pairing.toRegion defs))
        diagnostics := ms.starts.filterMap (Marker.conditionDiagnostic? source) }

end CondRegions
