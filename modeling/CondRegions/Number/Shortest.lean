import CondRegions.Number.Rounding

/-!
# The shortest decimal that reads back

A finite double stands for every real number that rounds to it: an interval, its ends included
exactly when the significand is even. Among the multiples of a power of ten, the two next to the
value are the ones that can lie in that interval. The coarsest power of ten with a hit gives the
fewest digits; of two hits the nearer one is taken.
-/

namespace CondRegions.Number

/-- A decimal `digits * 10 ^ exponent`. -/
structure Decimal where
  digits : Nat
  exponent : Int
deriving DecidableEq, Repr

/-- What to do when two decimals of the fewest digits are equally near. -/
inductive Tie where
  | away
  | even
deriving DecidableEq, Repr

/-- Compares `a * 10 ^ k` with `b * 2 ^ e`. -/
def compareScaled (a : Nat) (k : Int) (b : Nat) (e : Int) : Ordering :=
  let left := a * tenPow k.toNat * twoPow (-e).toNat
  let right := b * twoPow e.toNat * tenPow (-k).toNat
  compare left right

/-- The greatest multiple of `10 ^ k` that is at most `b * 2 ^ e`, divided by `10 ^ k`. -/
def floorScaled (b : Nat) (e : Int) (k : Int) : Nat :=
  (b * twoPow e.toNat * tenPow (-k).toNat) / (tenPow k.toNat * twoPow (-e).toNat)

/-- Whether `c * 10 ^ k` rounds to the double of a finite positive rank. -/
def hits (rank c : Nat) (k : Int) : Bool :=
  let m := significand rank
  let e : Int := (exponent rank : Int) - 1076
  -- Below a power of two the doubles are twice as dense.
  let below := if m == binade && exponent rank != 0 then 1 else 2
  let aboveLow := compareScaled c k (4 * m - below) e
  let belowHigh := compareScaled c k (4 * m + 2) e
  if m % 2 = 0 then aboveLow != .lt && belowHigh != .gt
  else aboveLow == .gt && belowHigh == .lt

/-- The multiple of `10 ^ k` that rounds to the double and is nearest to it, if there is one. -/
def nearestHit (tie : Tie) (rank : Nat) (k : Int) : Option Nat :=
  let b := 4 * significand rank
  let e : Int := (exponent rank : Int) - 1076
  let low := floorScaled b e k
  match hits rank low k, hits rank (low + 1) k with
  | true, false => some low
  | false, true => some (low + 1)
  | false, false => none
  | true, true =>
    match compareScaled (2 * low + 1) k (2 * b) e with
    | .gt => some low
    | .lt => some (low + 1)
    | .eq =>
      match tie with
      | .away => some (low + 1)
      | .even => some (if low % 2 = 0 then low else low + 1)

/-- The first hit among the powers of ten `k`, `k - 1`, … . -/
def searchShortest (tie : Tie) (rank : Nat) (k : Int) : Nat → Decimal
  | 0 => ⟨floorScaled (4 * significand rank) ((exponent rank : Int) - 1076) k, k⟩
  | n + 1 =>
    match nearestHit tie rank k with
    | some c => ⟨c, k⟩
    | none => searchShortest tie rank (k - 1) n

/-- **Shortest decimal.** The decimal with the fewest digits that rounds to the double of a finite
positive rank. The search starts at a power of ten above the value; seventeen digits always
suffice. -/
def shortest (tie : Tie) (rank : Nat) : Decimal :=
  let top : Int := (Nat.log2 (significand rank) : Int) + exponent rank - 1074
  searchShortest tie rank (top * 30103 / 100000 + 2) 40

end CondRegions.Number
