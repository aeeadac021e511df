import CondRegions.Text.Basic

/-!
# Spans

A span is a range of byte offsets of a text, its end excluded. `Span.lineRange` gives the lines a
span touches, counted from one: the line of its first byte and the line of its last byte.
-/

namespace CondRegions

/-- A range of byte offsets, `stop` excluded. -/
structure Span where
  start : Nat
  stop : Nat
deriving DecidableEq, Repr

namespace Span

/-- The number of bytes covered. -/
def length (s : Span) : Nat :=
  s.stop - s.start

/-- A span is empty when it ends where it starts. -/
def isEmpty (s : Span) : Bool :=
  s.start == s.stop

/-- Whether `t` lies inside `s`. -/
def contains (s t : Span) : Bool :=
  s.start ≤ t.start && t.stop ≤ s.stop

@[simp] theorem contains_eq_true {s t : Span} :
    s.contains t = true ↔ s.start ≤ t.start ∧ t.stop ≤ s.stop := by
  simp [contains]

/-- The span moved right by `offset` bytes. -/
def shift (s : Span) (offset : Nat) : Span :=
  ⟨s.start + offset, s.stop + offset⟩

/-- The characters that a span covers. -/
def extract (s : Span) (text : List Char) : List Char :=
  Text.slice text s.start s.stop

/-- The line, counted from one, on which the byte at `offset` stands. -/
def lineOf (text : List Char) (offset : Nat) : Nat :=
  Text.countBreaks (Text.takeBytes offset text) + 1

/-- **Line range.** The lines of the first and of the last byte. An empty span has one line, that of
its offset. -/
def lineRange (s : Span) (text : List Char) : Nat × Nat :=
  (lineOf text s.start, lineOf text (if s.start < s.stop then s.stop - 1 else s.stop))

end Span

/-- A value with the place it was read from. -/
structure Spanned (α : Type) where
  value : α
  span : Span
deriving DecidableEq, Repr

end CondRegions
