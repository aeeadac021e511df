import CondRegions.Number.Rounding

/-!
# Reading numbers

A numeral is an optional sign, then digits with an optional point among, before or after them, then
an optional exponent; or one of the names of infinity and of not-a-number, in any case. Nothing else
may stand around it.
-/

namespace CondRegions.Number

/-- Whether a character is a decimal digit. -/
def isDigit (c : Char) : Bool :=
  '0' ≤ c && c ≤ '9'

/-- The value of a run of decimal digits. -/
def natOfDigits (cs : List Char) : Nat :=
  cs.foldl (fun n c => 10 * n + (c.toNat - '0'.toNat)) 0

/-- A sign at the start of a text: whether it is a minus, and what follows. -/
def takeSign : List Char → Bool × List Char
  | '-' :: cs => (true, cs)
  | '+' :: cs => (false, cs)
  | cs => (false, cs)

/-- An exponent that makes up the whole text: nothing at all, or a mark, an optional sign and
digits. -/
def readExponent : List Char → Option Int
  | [] => some 0
  | c :: cs =>
    let (negative, ds) := takeSign cs
    if (c == 'e' || c == 'E') && !ds.isEmpty && ds.all isDigit then
      some (if negative then -(natOfDigits ds : Int) else natOfDigits ds)
    else none

/-- An unsigned decimal that makes up the whole text. -/
def readDecimal (negative : Bool) (cs : List Char) : Option Number :=
  let whole := cs.takeWhile isDigit
  let rest := cs.dropWhile isDigit
  let (fraction, rest) :=
    match rest with
    | '.' :: r => (r.takeWhile isDigit, r.dropWhile isDigit)
    | r => ([], r)
  if whole.isEmpty && fraction.isEmpty then none
  else (readExponent rest).map fun e =>
    ofDecimal negative (natOfDigits (whole ++ fraction)) (e - fraction.length)

/-- The named numbers, in lower case. -/
def readName (negative : Bool) (cs : List Char) : Option Number :=
  let name := cs.map Char.toLower
  if name = "inf".toList || name = "infinity".toList then some (.signed negative infinityRank)
  else if name = "nan".toList then some .nan
  else none

/-- **Reading.** The number that a whole text denotes. -/
def read? (cs : List Char) : Option Number :=
  let (negative, body) := takeSign cs
  match readName negative body with
  | some n => some n
  | none => readDecimal negative body

end CondRegions.Number
