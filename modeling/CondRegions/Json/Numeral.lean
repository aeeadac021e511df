import CondRegions.Json.Basic

/-!
# Numerals of JSON

A numeral is a sign, an integer part without leading zeros, an optional fraction and an optional
exponent. An integer that fits in 64 bits is an integer. Any other numeral is a double, computed in
two roundings: as many leading digits as fit in 64 bits are rounded to a double, which is then
multiplied or divided by the double of a power of ten. Digits are taken from the integer part first
and then from the fraction, each part up to the first digit that does not fit. A numeral beyond the
greatest double is an error.
-/

namespace CondRegions.Json

/-- The greatest integer that an unsigned 64-bit word holds. -/
def maxWord : Nat := Number.twoPow 64 - 1

/-- The parts of a numeral. -/
structure Numeral where
  negative : Bool
  whole : List Char
  /-- The digits behind the point. -/
  fraction : Option (List Char)
  exponent : Option Int
deriving DecidableEq, Repr

/-! ### Doubles in two roundings -/

/-- The rank of the product of the values of two finite ranks. -/
def mulRank (a b : Nat) : Nat :=
  let m := Number.significand a * Number.significand b
  let e : Int := (Number.exponent a : Int) + Number.exponent b - 2148
  if m = 0 then 0 else Number.rankOfDiv (m * Number.twoPow e.toNat) (Number.twoPow (-e).toNat)

/-- The rank of the quotient of the values of two finite ranks, the second of them positive. -/
def divRank (a b : Nat) : Nat :=
  let e : Int := (Number.exponent a : Int) - Number.exponent b
  let num := Number.significand a * Number.twoPow e.toNat
  if num = 0 then 0 else Number.rankOfDiv num (Number.significand b * Number.twoPow (-e).toNat)

/-- The rank of the double of a power of ten, up to the 308th. -/
def powerRank (k : Nat) : Nat :=
  Number.rankOfDiv (Number.tenPow k) 1

/-- The rank of a finite rank's value divided by `10 ^ k`, by `10 ^ 308` as long as more than that
is left to divide by. -/
def divPower (rank k : Nat) : Nat :=
  let times := (k - 1) / 308
  divRank (Nat.repeat (divRank · (powerRank 308)) times rank) (powerRank (k - 308 * times))

/-- The rank of `significand * 10 ^ exponent` in two roundings, if it is finite. -/
def scaledRank? (significand : Nat) (exponent : Int) : Option Nat :=
  if significand = 0 then some 0
  else
    let rank := Number.rankOfDiv significand 1
    if exponent < 0 then
      -- Below this power the first division already leaves nothing.
      some (if exponent < -1000 then 0 else divPower rank exponent.natAbs)
    else if 308 < exponent then none
    else
      let product := mulRank rank (powerRank exponent.toNat)
      if product < Number.infinityRank then some product else none

/-- Appends digits to a number as long as the result fits in 64 bits: the result, and how many
digits were taken. -/
def takeDigits (n : Nat) (taken : Nat) : List Char → Nat × Nat
  | [] => (n, taken)
  | c :: cs =>
    let next := 10 * n + (c.toNat - '0'.toNat)
    if next ≤ maxWord then takeDigits next (taken + 1) cs else (n, taken)

/-- The double of a numeral. -/
def Numeral.toNumber? (s : Numeral) : Option Number :=
  let (n, taken) := takeDigits 0 0 s.whole
  let skipped := s.whole.length - taken
  let (n, places) := takeDigits n 0 (s.fraction.getD [])
  let exponent := (skipped : Int) - places + s.exponent.getD 0
  (scaledRank? n exponent).map (.signed s.negative)

/-- **The value of a numeral.** The negative zero is a double. -/
def Numeral.toJson? (s : Numeral) : Option Json :=
  let n := Number.natOfDigits s.whole
  let isInteger := s.fraction.isNone && s.exponent.isNone
  if isInteger && !s.negative && n ≤ maxWord then some (.integer n)
  else if isInteger && s.negative && 0 < n && n ≤ Number.twoPow 63 then some (.integer (-(n : Int)))
  else s.toNumber?.map .number

/-! ### Reading -/

/-- The integer part of a numeral: a zero alone, or digits that do not begin with one. -/
def takeWhole : List Char → List Char × List Char
  | '0' :: cs => (['0'], cs)
  | cs => (cs.takeWhile Number.isDigit, cs.dropWhile Number.isDigit)

/-- The fraction of a numeral, if there is one; the outer option is empty if a point has no
digit. -/
def takeFraction? : List Char → Option (Option (List Char) × List Char)
  | '.' :: cs =>
    match cs.takeWhile Number.isDigit with
    | [] => none
    | ds => some (some ds, cs.dropWhile Number.isDigit)
  | cs => some (none, cs)

/-- The exponent of a numeral, if there is one; the outer option is empty if a mark has no digit. -/
def takeExponent? : List Char → Option (Option Int × List Char)
  | c :: cs =>
    if c == 'e' || c == 'E' then
      let (negative, ds) := Number.takeSign cs
      match ds.takeWhile Number.isDigit with
      | [] => none
      | digits =>
        let n : Int := Number.natOfDigits digits
        some (some (if negative then -n else n), ds.dropWhile Number.isDigit)
    else some (none, c :: cs)
  | [] => some (none, [])

/-- A numeral at the start of a text, and what follows. -/
def scanNumeral? (cs : List Char) : Option (Numeral × List Char) := do
  let (negative, body) := match cs with
    | '-' :: rest => (true, rest)
    | rest => (false, rest)
  let (whole, rest) := takeWhole body
  if whole.isEmpty then none
  let (fraction, rest) ← takeFraction? rest
  let (exponent, rest) ← takeExponent? rest
  return (⟨negative, whole, fraction, exponent⟩, rest)

/-! ### A numeral takes at least one character -/

theorem length_takeWhole (cs : List Char) :
    (takeWhole cs).1.length + (takeWhole cs).2.length = cs.length := by
  unfold takeWhole
  split
  · simp [Nat.add_comm]
  · rw [← List.length_append, List.takeWhile_append_dropWhile]

theorem length_takeFraction?_le {cs rest : List Char} {fraction : Option (List Char)}
    (h : takeFraction? cs = some (fraction, rest)) : rest.length ≤ cs.length := by
  unfold takeFraction? at h
  split at h
  · rename_i tail
    split at h
    · simp at h
    · simp only [Option.some.injEq, Prod.mk.injEq] at h
      obtain ⟨-, rfl⟩ := h
      exact Nat.le_succ_of_le (List.dropWhile_sublist Number.isDigit).length_le
  · simp_all

theorem length_takeSign_le (cs : List Char) : (Number.takeSign cs).2.length ≤ cs.length := by
  unfold Number.takeSign
  split <;> simp

theorem length_takeExponent?_le {cs rest : List Char} {exponent : Option Int}
    (h : takeExponent? cs = some (exponent, rest)) : rest.length ≤ cs.length := by
  unfold takeExponent? at h
  split at h
  · rename_i c tail
    split at h
    · simp only at h
      split at h
      · simp at h
      · simp only [Option.some.injEq, Prod.mk.injEq] at h
        obtain ⟨-, rfl⟩ := h
        have dropped : ((Number.takeSign tail).2.dropWhile Number.isDigit).length ≤
            (Number.takeSign tail).2.length := (List.dropWhile_sublist Number.isDigit).length_le
        have sign := length_takeSign_le tail
        simp only [List.length_cons]
        omega
    · simp_all
  · simp_all

/-- Reading a numeral leaves a shorter text. -/
theorem length_scanNumeral?_lt {cs rest : List Char} {numeral : Numeral}
    (h : scanNumeral? cs = some (numeral, rest)) : rest.length < cs.length := by
  have unsigned : ∀ (negative : Bool) (body : List Char),
      (do
        if (takeWhole body).1.isEmpty then none
        let (fraction, rest) ← takeFraction? (takeWhole body).2
        let (exponent, rest) ← takeExponent? rest
        some ((⟨negative, (takeWhole body).1, fraction, exponent⟩ : Numeral), rest)) =
          some (numeral, rest) → rest.length < body.length := by
    intro negative body h
    split at h
    · simp at h
    · rename_i nonempty
      simp only [Option.bind_eq_bind, Option.bind_eq_some_iff, Option.some.injEq,
        Prod.mk.injEq] at h
      obtain ⟨⟨fraction, rest₁⟩, hf, ⟨exponent, rest₂⟩, he, -, rfl⟩ := h
      have whole := length_takeWhole body
      have positive : 0 < (takeWhole body).1.length := by
        simpa [List.length_pos_iff] using nonempty
      have fraction := length_takeFraction?_le hf
      have exponent := length_takeExponent?_le he
      simp only at exponent ⊢
      omega
  unfold scanNumeral? at h
  split at h
  rename_i negative body hsign
  split at hsign
  · simp only [Prod.mk.injEq] at hsign
    obtain ⟨rfl, rfl⟩ := hsign
    exact Nat.lt_succ_of_lt (unsigned _ _ h)
  · simp only [Prod.mk.injEq] at hsign
    obtain ⟨rfl, rfl⟩ := hsign
    exact unsigned _ _ h

end CondRegions.Json
