import CondRegions.Number.Basic

/-!
# The double nearest to a decimal

`Number.ofDecimal negative digits exponent` is the double nearest to `digits * 10 ^ exponent`, of
two equally near ones that with the even significand. The computation is exact: the decimal is a
quotient of natural numbers, the quotient is scaled by the power of two that leaves 53 bits before
the point (or by `2 ^ 1074`, if that leaves fewer), and the remainder decides the rounding.
-/

namespace CondRegions.Number

/-- The natural number nearest to `num / den`, of two equally near ones the even one. -/
def roundDiv (num den : Nat) : Nat :=
  let q := num / den
  let r := num % den
  if 2 * r < den then q
  else if den < 2 * r then q + 1
  else if q % 2 = 0 then q else q + 1

/-- The greatest `e` with `2 ^ e ≤ num / den`, for positive `num` and `den`. -/
def log2Div (num den : Nat) : Int :=
  let e : Int := (Nat.log2 num : Int) - (Nat.log2 den : Int)
  let reached := if 0 ≤ e then den * twoPow e.toNat ≤ num else den ≤ num * twoPow (-e).toNat
  if reached then e else e - 1

/-- The rank of the double nearest to `num / den`, both positive. -/
def rankOfDiv (num den : Nat) : Nat :=
  let shift : Int := max (-1074) (log2Div num den - 52)
  let m :=
    if 0 ≤ shift then roundDiv num (den * twoPow shift.toNat)
    else roundDiv (num * twoPow (-shift).toNat) den
  -- A carry into the next power of two is the carry of this sum.
  min infinityRank ((shift + 1074).toNat * binade + m)

/-- **Nearest double.** The double nearest to `digits * 10 ^ exponent`, with the sign given. Beyond
`10 ^ 310` every decimal rounds to infinity and below `10 ^ (-325)` to zero. -/
def ofDecimal (negative : Bool) (digits : Nat) (exponent : Int) : Number :=
  if digits = 0 then .signed negative 0
  else
    let top : Int := ((Nat.toDigits 10 digits).length : Int) + exponent
    if 310 < top then .signed negative infinityRank
    else if top < -325 then .signed negative 0
    else if 0 ≤ exponent then .signed negative (rankOfDiv (digits * tenPow exponent.toNat) 1)
    else .signed negative (rankOfDiv digits (tenPow (-exponent).toNat))

/-- The double nearest to an integer. -/
def ofInt (n : Int) : Number :=
  ofDecimal (n < 0) n.natAbs 0

end CondRegions.Number
