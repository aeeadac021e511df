import CondRegions.Region.Basic

/-!
# Substitution

Substitution keeps the text outside regions, drops the markers of regions and keeps what stands
between them where the condition holds. A region that is dropped takes the regions inside it along.
-/

namespace CondRegions

/-- The regions of a list, sorted by start, that start before `stop`: those inside a region that
ends there. -/
def startingBefore (stop : Nat) (rs : List Region) : List Region :=
  rs.takeWhile fun r => r.span.start < stop

/-- The regions that follow those of `startingBefore`. -/
def startingFrom (stop : Nat) (rs : List Region) : List Region :=
  rs.dropWhile fun r => r.span.start < stop

/-- The text from `start` up to `stop` with the given regions, sorted by start, substituted. -/
def splice (text : List Char) (start stop : Nat) : List Region → List Char
  | [] => Text.slice text start stop
  | r :: rs =>
    Text.slice text start r.span.start ++
      (if r.result then
        splice text r.inner.start r.inner.stop (startingBefore r.span.stop rs) else []) ++
      splice text r.span.stop stop (startingFrom r.span.stop rs)
termination_by rs => rs.length
decreasing_by
  · exact Nat.lt_succ_of_le (List.takeWhile_sublist _).length_le
  · exact Nat.lt_succ_of_le (List.dropWhile_sublist _).length_le

/-- **Substitution.** The text with every region replaced by what is kept of it. -/
def substitute (text : List Char) (regions : List Region) : List Char :=
  splice text 0 (Text.byteLength text) (Region.sort regions)

end CondRegions
