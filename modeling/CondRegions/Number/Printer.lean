import CondRegions.Number.Shortest

/-!
# Printing numbers

Two layouts of the shortest decimal are in use. Conditions show a number with every place written
out and no point behind an integer. In the text of a structured option a number always shows that it
is not an integer, and very large and very small ones have an exponent.
-/

namespace CondRegions.Number

/-- The decimal digits of a natural number. -/
def digitsOf (n : Nat) : List Char :=
  Nat.toDigits 10 n

/-- A decimal with all its places written out. -/
def positional (d : Decimal) : List Char :=
  let ds := digitsOf d.digits
  if 0 ≤ d.exponent then ds ++ List.replicate d.exponent.toNat '0'
  else
    let places := (-d.exponent).toNat
    let whole := ds.take (ds.length - places)
    let fraction := ds.drop (ds.length - places)
    (if whole.isEmpty then ['0'] else whole) ++
      '.' :: List.replicate (places - fraction.length) '0' ++ fraction

/-- A decimal with one digit before the point and a signed exponent. -/
def scientific (d : Decimal) : List Char :=
  let ds := digitsOf d.digits
  let e : Int := d.exponent + (ds.length - 1 : Nat)
  let fraction := ds.drop 1
  ds.take 1 ++ (if fraction.isEmpty then [] else '.' :: fraction) ++
    'e' :: (if e < 0 then '-' else '+') :: digitsOf e.natAbs

/-- The sign and the text of an absolute value. -/
def withSign (negative : Bool) (cs : List Char) : List Char :=
  if negative then '-' :: cs else cs

/-- **Plain text.** Every place is written out, and an integer has no point. -/
def toText : Number → List Char
  | .nan => "NaN".toList
  | .signed negative rank =>
    withSign negative <|
      if infinityRank ≤ rank then "inf".toList
      else if rank = 0 then ['0']
      else positional (shortest .away rank)

/-- **Text with a fraction.** Written out if the leading digit stands between the fifth place behind
the point and the sixteenth before it, else with an exponent. Only finite numbers occur. -/
def toFractionText : Number → List Char
  | .nan => "null".toList
  | .signed negative rank =>
    if infinityRank ≤ rank then "null".toList
    else withSign negative <|
      if rank = 0 then "0.0".toList
      else
        let d := shortest .even rank
        let lead : Int := d.exponent + ((digitsOf d.digits).length - 1 : Nat)
        if -5 ≤ lead && lead ≤ 15 then
          positional d ++ (if 0 ≤ d.exponent then ".0".toList else [])
        else scientific d

end CondRegions.Number
