/-!
# Operators of the condition language

The binary operators with their symbols and their four levels of binding, from the loosest to the
tightest: disjunction, conjunction, equality, order. All of them group to the left.
-/

namespace CondRegions

/-- A binary operator. -/
inductive Operator where
  | or
  | and
  | strictEq
  | strictNe
  | eq
  | ne
  | le
  | ge
  | lt
  | gt
deriving DecidableEq, Repr

/-- How tightly an operator binds, the loosest level first. -/
inductive Level where
  | or
  | and
  | equality
  | relational
deriving DecidableEq, Repr

namespace Operator

/-- The operator as it is written. -/
def symbol : Operator → String
  | .or => "||"
  | .and => "&&"
  | .strictEq => "==="
  | .strictNe => "!=="
  | .eq => "=="
  | .ne => "!="
  | .le => "<="
  | .ge => ">="
  | .lt => "<"
  | .gt => ">"

/-- Every operator once. -/
def all : List Operator :=
  [.or, .and, .strictEq, .strictNe, .eq, .ne, .le, .ge, .lt, .gt]

/-- The operator that a symbol stands for. -/
def ofSymbol? (s : String) : Option Operator :=
  all.find? fun op => op.symbol == s

/-- The level at which an operator binds. -/
def level : Operator → Level
  | .or => .or
  | .and => .and
  | .strictEq | .strictNe | .eq | .ne => .equality
  | .le | .ge | .lt | .gt => .relational

end Operator

end CondRegions
