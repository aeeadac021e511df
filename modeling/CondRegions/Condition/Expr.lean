import CondRegions.Condition.Operator
import CondRegions.Definitions

/-!
# Conditions

The expressions of the condition language. Every node carries an annotation: the parser's trees
carry the span that each node was read from, and `Expr.erase` forgets the annotations, so that two
trees can be compared up to their places in a text.

* `Expr.pretty` — the expression with all grouping made explicit;
* `Expr.eval` — its value under a set of definitions.
-/

namespace CondRegions

/-- An expression with annotations of type `α`. -/
inductive Expr (α : Type) where
  | literal (note : α) (value : Value)
  | identifier (note : α) (name : String)
  | not (note : α) (operand : Expr α)
  | binary (note : α) (op : Operator) (left right : Expr α)
deriving DecidableEq, Repr

namespace Expr

variable {α β : Type}

/-- The annotation of the root. -/
def note : Expr α → α
  | .literal a _ => a
  | .identifier a _ => a
  | .not a _ => a
  | .binary a _ _ _ => a

/-- The expression with every annotation changed by `f`. -/
def map (f : α → β) : Expr α → Expr β
  | .literal a v => .literal (f a) v
  | .identifier a name => .identifier (f a) name
  | .not a e => .not (f a) (e.map f)
  | .binary a op l r => .binary (f a) op (l.map f) (r.map f)

/-- The expression without its annotations. -/
def erase (e : Expr α) : Expr Unit :=
  e.map fun _ => ()

/-! ### Printing -/

/-- **Explicit grouping.** The expression with a pair of parentheses around every binary
operator. -/
def pretty : Expr α → String
  | .literal _ v => v.quotedText
  | .identifier _ name => name
  | .not _ e => "!" ++ e.pretty
  | .binary _ op l r => "(" ++ l.pretty ++ " " ++ op.symbol ++ " " ++ r.pretty ++ ")"

/-! ### Evaluation -/

/-- The outcome of an operator that compares its operands. Operands without an order fail every
ordering. The two logical operators do not compare. -/
def compareWith (op : Operator) (v w : Value) : Bool :=
  match op with
  | .strictEq => v.strictEquals w
  | .strictNe => !v.strictEquals w
  | .eq => v.looseEquals w
  | .ne => !v.looseEquals w
  | .lt => v.compare? w == some .lt
  | .gt => v.compare? w == some .gt
  | .le => (v.compare? w).any Ordering.isLE
  | .ge => (v.compare? w).any Ordering.isGE
  | .or | .and => false

/-- **Evaluation.** The logical operators yield one of their operands, every other operator a truth
value. -/
def eval (defs : Definitions) : Expr α → Value
  | .literal _ v => v
  | .identifier _ name => defs.lookup name
  | .not _ e => .bool !(e.eval defs).isTruthy
  | .binary _ op l r =>
    let v := l.eval defs
    match op with
    | .or => if v.isTruthy then v else r.eval defs
    | .and => if v.isTruthy then r.eval defs else v
    | op => .bool (compareWith op v (r.eval defs))

end Expr

end CondRegions
