/-!
# Numbers

Numbers are IEEE doubles. The language of conditions reads, prints and compares them and never
computes with them, so a double is kept as what those three need: not-a-number, or a sign together
with the *rank* of the absolute value, its place among the non-negative doubles counted from zero.
Zero has rank 0, the least positive double rank 1, and infinity comes right after the greatest
finite double. Ranks order absolute values, which makes comparison a comparison of integers.

* `Number.significand`, `Number.exponent` — the finite value of rank `r` is
  `significand r * 2 ^ (exponent r - 1074)`;
* `Number.compare?` — the order of two numbers; not-a-number has none.
-/

namespace CondRegions

/-- A double. -/
inductive Number where
  /-- Not a number. -/
  | nan
  /-- A sign and the rank of the absolute value. -/
  | signed (negative : Bool) (rank : Nat)
deriving DecidableEq, Repr

namespace Number

/-- A power of two. -/
def twoPow (n : Nat) : Nat := Nat.pow 2 n

/-- A power of ten. -/
def tenPow (n : Nat) : Nat := Nat.pow 10 n

/-- The number of doubles that share a power of two. -/
def binade : Nat := twoPow 52

/-- The rank of infinity. -/
def infinityRank : Nat := 2047 * binade

/-- Positive zero. -/
def zero : Number := .signed false 0

/-- The rank of one. -/
def oneRank : Nat := 1023 * binade

/-- One. -/
def one : Number := .signed false oneRank

/-- The integer significand of the value of a finite rank. -/
def significand (rank : Nat) : Nat :=
  if rank < binade then rank else binade + rank % binade

/-- The power of two, above `-1074`, that the significand of a finite rank is multiplied with. -/
def exponent (rank : Nat) : Nat :=
  rank / binade - 1

/-- Whether a number is zero, of either sign. -/
def isZero : Number → Bool
  | .nan => false
  | .signed _ rank => rank == 0

/-- The rank with its sign. Both zeros have the key 0. -/
def key (negative : Bool) (rank : Nat) : Int :=
  if negative then -(rank : Int) else rank

/-- **Order of numbers.** Not-a-number is not ordered with anything, itself included; the two zeros
are equal. -/
def compare? : Number → Number → Option Ordering
  | .signed n r, .signed m s => some (compare (key n r) (key m s))
  | _, _ => none

/-- Equality as conditions see it: not-a-number differs from itself, and the two zeros are equal. -/
def equals (a b : Number) : Bool :=
  a.compare? b == some .eq

end Number

end CondRegions
