import CondRegions.Number.Printer
import CondRegions.Number.Reader
import CondRegions.Text.Basic
import CondRegions.Text.Quoted

/-!
# Values

What a definition holds and what a condition computes: the absent value, null, a truth value, a
number or a string.

* `Value.isTruthy` — how a value decides a region;
* `Value.text` — the value as it is shown;
* `Value.ofLiteral` — the value of a literal on the command line.
-/

namespace CondRegions

/-- A value of the condition language. -/
inductive Value where
  /-- The value of a name without a definition. -/
  | undefined
  | null
  | bool (b : Bool)
  | number (n : Number)
  | string (s : String)
deriving DecidableEq, Repr

namespace Value

/-- **Truthiness.** The absent value, null, `false`, zero, not-a-number and the empty string are
falsy; all else is truthy. -/
def isTruthy : Value → Bool
  | .undefined => false
  | .null => false
  | .bool b => b
  | .number .nan => false
  | .number n => !n.isZero
  | .string s => s != ""

/-- The name of a value's type. -/
def typeName : Value → String
  | .undefined => "undefined"
  | .null => "null"
  | .bool _ => "boolean"
  | .number _ => "number"
  | .string _ => "string"

/-- The text of a value; a string is its own text. -/
def text : Value → String
  | .undefined => "undefined"
  | .null => "null"
  | .bool true => "true"
  | .bool false => "false"
  | .number n => String.ofList n.toText
  | .string s => s

/-- The text of a value with strings quoted. -/
def quotedText : Value → String
  | .string s => String.ofList (Text.quote s.toList)
  | v => v.text

/-- **Literals.** `true` and `false` are truth values, a numeral is a number, any other text is a
string. -/
def ofLiteral (s : String) : Value :=
  if s = "true" then .bool true
  else if s = "false" then .bool false
  else match Number.read? s.toList with
    | some n => .number n
    | none => .string s

/-- The number that a value counts as in a comparison. A blank string is zero; null and the absent
value are no numbers. -/
def toNumber? : Value → Option Number
  | .number n => some n
  | .bool b => some (if b then Number.one else Number.zero)
  | .string s =>
    match Text.trim s.toList with
    | [] => some Number.zero
    | cs => Number.read? cs
  | .undefined => none
  | .null => none

/-- Equality without conversion. -/
def strictEquals : Value → Value → Bool
  | .undefined, .undefined => true
  | .null, .null => true
  | .bool a, .bool b => a == b
  | .number a, .number b => a.equals b
  | .string a, .string b => a == b
  | _, _ => false

/-- Whether two values count as the same number. -/
def numericEquals (v w : Value) : Bool :=
  match v.toNumber?, w.toNumber? with
  | some a, some b => a.equals b
  | _, _ => false

/-- **Equality with conversion.** The absent value and null equal each other and nothing else. A
truth value is compared as a number with anything, and a number with a string. -/
def looseEquals : Value → Value → Bool
  | .undefined, .undefined | .undefined, .null | .null, .undefined | .null, .null => true
  | .undefined, _ | .null, _ | _, .undefined | _, .null => false
  | .string a, .string b => a == b
  | .number a, .number b => a.equals b
  | v, w => numericEquals v w

/-- The number that a value counts as in an ordering: as in a comparison, but null is zero. -/
def toOrdered? : Value → Option Number
  | .null => some Number.zero
  | v => v.toNumber?

/-- **Order of values.** Two strings are ordered by their characters, any other two values as
numbers. Values that are no numbers have no order. -/
def compare? : Value → Value → Option Ordering
  | .string a, .string b => some (compare a b)
  | v, w => do (← v.toOrdered?).compare? (← w.toOrdered?)

end Value

end CondRegions
