import CondRegions.Condition.Expr
import Mathlib.Order.Compare

/-!
# Equality and order of values

Conditions compare values in three ways, each with its own conversions: without any (`===`), with
null and the absent value equal to each other and to nothing else (`==`), and with null as zero (`<`
and its like). The three agree where they can.

* `Number.compare?_swap` — two numbers are ordered the same way from both sides, or from neither;
* `Value.compare?_swap` — so are two values, whether they are compared as strings or as numbers;
* `Value.looseEquals_eq_compare?` — apart from null and the absent value, two values are equal with
  conversion exactly if neither comes first. This is what ties the two tables of conversions
  together, and equality is symmetric because the order is;
* `Value.looseEquals_of_strictEquals` — equality without conversion is equality with it.

`Expr.eval_comparisons` says what follows for the operators between two expressions.
-/

namespace CondRegions

/-! ### Numbers -/

namespace Number

/-- **Numbers from both sides.** -/
theorem compare?_swap (a b : Number) : (a.compare? b).map Ordering.swap = b.compare? a := by
  cases a with
  | nan => cases b <;> rfl
  | signed n r =>
    cases b with
    | nan => rfl
    | signed m s => exact congrArg some Std.OrientedCmp.eq_swap.symm

theorem equals_comm (a b : Number) : a.equals b = b.equals a := by
  unfold equals
  rw [← compare?_swap a b]
  -- equality only asks whether neither side comes first, which swapping leaves alone
  rcases a.compare? b with _ | _ | _ | _ <;> rfl

/-- A number with a sign equals itself; not-a-number would not. -/
theorem equals_signed (negative : Bool) (rank : Nat) :
    (signed negative rank).equals (signed negative rank) = true := by
  have horder : (signed negative rank).compare? (signed negative rank) = some .eq :=
    congrArg some Std.compare_self
  unfold equals
  rw [horder]
  rfl

end Number

/-! ### Values -/

namespace Value

/-- The order of what two values count as, where both count as numbers. -/
def orderOf (x y : Option Number) : Option Ordering := do
  (← x).compare? (← y)

theorem orderOf_swap (x y : Option Number) : (orderOf x y).map Ordering.swap = orderOf y x := by
  cases x with
  | none => cases y <;> rfl
  | some a =>
    cases y with
    | none => rfl
    | some b => exact a.compare?_swap b

/-- Two values of which one is no string are compared as numbers. -/
theorem compare?_eq_orderOf {v w : Value} (h : ∀ a b, v = .string a → w ≠ .string b) :
    v.compare? w = orderOf v.toOrdered? w.toOrdered? :=
  compare?.eq_2 v w h

/-- **Values from both sides.** -/
theorem compare?_swap (v w : Value) : (v.compare? w).map Ordering.swap = w.compare? v := by
  by_cases h : ∃ a b, v = .string a ∧ w = .string b
  · -- two strings always have an order
    obtain ⟨a, b, rfl, rfl⟩ := h
    exact congrArg some Std.OrientedCmp.eq_swap.symm
  · -- otherwise both directions go through numbers, which are swapped there
    have hvw : ∀ a b, v = .string a → w ≠ .string b := fun a b hv hw => h ⟨a, b, hv, hw⟩
    have hwv : ∀ b a, w = .string b → v ≠ .string a := fun b a hw hv => h ⟨a, b, hv, hw⟩
    rw [compare?_eq_orderOf hvw, compare?_eq_orderOf hwv]
    exact orderOf_swap _ _

/-- The absent value has no order with anything. -/
theorem compare?_undefined (v : Value) :
    compare? .undefined v = none ∧ v.compare? .undefined = none := by
  have hleft : compare? .undefined v = none := rfl
  refine ⟨hleft, ?_⟩
  rw [← compare?_swap .undefined v, hleft]
  rfl

theorem strictEquals_comm (v w : Value) : v.strictEquals w = w.strictEquals v := by
  cases v with
  | number a =>
    cases w with
    | number b => exact a.equals_comm b
    | _ => rfl
  | bool a =>
    cases w with
    | bool b => exact BEq.comm
    | _ => rfl
  | string a =>
    cases w with
    | string b => exact BEq.comm
    | _ => rfl
  | undefined | null => cases w <;> rfl

theorem numericEquals_eq_orderOf (v w : Value) :
    v.numericEquals w = (orderOf v.toNumber? w.toNumber? == some .eq) := by
  unfold numericEquals
  cases v.toNumber? with
  | none => rfl
  | some a => cases w.toNumber? <;> rfl

/-- Two strings are equal exactly if neither comes first. -/
theorem beq_eq_compare (a b : String) : (a == b) = (some (compare a b) == some Ordering.eq) := by
  rw [Bool.eq_iff_iff, beq_iff_eq, beq_iff_eq, Option.some.injEq, Std.compare_eq_iff_eq]

/-- **Equality and order.** Two values other than null and the absent value are equal with
conversion exactly if they have an order and neither comes first. -/
theorem looseEquals_eq_compare? {v w : Value} (hv : v ≠ .undefined ∧ v ≠ .null)
    (hw : w ≠ .undefined ∧ w ≠ .null) : v.looseEquals w = (v.compare? w == some .eq) := by
  -- null and the absent value are excluded, and each of the other nine pairs goes to the same
  -- conversion in both tables
  cases v with
  | undefined => exact absurd rfl hv.1
  | null => exact absurd rfl hv.2
  | bool a =>
    cases w with
    | undefined => exact absurd rfl hw.1
    | null => exact absurd rfl hw.2
    | bool b => exact numericEquals_eq_orderOf (.bool a) (.bool b)
    | number b => exact numericEquals_eq_orderOf (.bool a) (.number b)
    | string b => exact numericEquals_eq_orderOf (.bool a) (.string b)
  | number a =>
    cases w with
    | undefined => exact absurd rfl hw.1
    | null => exact absurd rfl hw.2
    | number b => rfl
    | bool b => exact numericEquals_eq_orderOf (.number a) (.bool b)
    | string b => exact numericEquals_eq_orderOf (.number a) (.string b)
  | string a =>
    cases w with
    | undefined => exact absurd rfl hw.1
    | null => exact absurd rfl hw.2
    | string b => exact beq_eq_compare a b
    | bool b => exact numericEquals_eq_orderOf (.string a) (.bool b)
    | number b => exact numericEquals_eq_orderOf (.string a) (.number b)

/-- Equality with conversion is symmetric, because the order is the same from both sides. -/
theorem looseEquals_comm (v w : Value) : v.looseEquals w = w.looseEquals v := by
  -- null and the absent value equal each other only
  by_cases hv : v = .undefined ∨ v = .null
  · rcases hv with rfl | rfl <;> cases w <;> rfl
  by_cases hw : w = .undefined ∨ w = .null
  · rcases hw with rfl | rfl <;> cases v <;> rfl
  -- all other values are equal as the order says, and the order can be read from either side
  rw [looseEquals_eq_compare? (not_or.mp hv) (not_or.mp hw),
    looseEquals_eq_compare? (not_or.mp hw) (not_or.mp hv), ← compare?_swap v w]
  rcases v.compare? w with _ | _ | _ | _ <;> rfl

/-- **Equality without conversion is equality with it.** -/
theorem looseEquals_of_strictEquals {v w : Value} (h : v.strictEquals w = true) :
    v.looseEquals w = true := by
  cases v with
  | undefined =>
    cases w with
    | undefined => rfl
    | _ => cases h
  | null =>
    cases w with
    | null => rfl
    | _ => cases h
  | bool a =>
    cases w with
    | bool b =>
      -- both are one, or both are zero
      obtain rfl : a = b := eq_of_beq h
      cases a <;> exact Number.equals_signed _ _
    | _ => cases h
  | number a =>
    cases w with
    -- on two numbers and on two strings the two equalities are one test
    | number b => exact h
    | _ => cases h
  | string a =>
    cases w with
    | string b => exact h
    | _ => cases h

end Value

/-! ### Expressions -/

namespace Expr

variable {α : Type}

/-- A comparison of values the other way round. -/
theorem compareWith_swap (v w : Value) :
    compareWith .lt v w = compareWith .gt w v ∧ compareWith .le v w = compareWith .ge w v := by
  unfold compareWith
  rw [← Value.compare?_swap v w]
  rcases v.compare? w with _ | _ | _ | _ <;> exact ⟨rfl, rfl⟩

/-- Neither comes first exactly if each comes at most as far as the other. -/
theorem compareWith_le_ge (v w : Value) :
    (compareWith .le v w && compareWith .ge v w) = (v.compare? w == some .eq) := by
  unfold compareWith
  rcases v.compare? w with _ | _ | _ | _ <;> rfl

theorem compareWith_lt_gt (v w : Value) : (compareWith .lt v w && compareWith .gt v w) = false := by
  unfold compareWith
  rcases v.compare? w with _ | _ | _ | _ <;> rfl

/-- Values without an order fail every ordering. -/
theorem compareWith_of_unordered {v w : Value} (h : v.compare? w = none) :
    ∀ op ∈ [Operator.lt, .le, .gt, .ge], compareWith op v w = false := by
  intro op hop
  -- the four orderings all ask for an order first
  simp only [List.mem_cons, List.not_mem_nil, or_false] at hop
  rcases hop with rfl | rfl | rfl | rfl <;> simp [compareWith, h]

/-- **Comparisons are coherent.** Let `value` and `value'` be the values of an operator between two
expressions and between the same expressions the other way round.

Both equalities are symmetric, and equality without conversion is equality with it. Each ordering is
its opposite the other way round, and no two expressions are less and greater than each other. If
one of them has no value, every ordering fails. If both have one, and neither is null, they are
equal with conversion exactly if each is at most the other. -/
theorem eval_comparisons (defs : Definitions) (a b : Expr α) (note note' : α) :
    let value := fun op => (Expr.binary note op a b).eval defs
    let value' := fun op => (Expr.binary note' op b a).eval defs
    value .eq = value' .eq ∧ value .strictEq = value' .strictEq ∧
    (value .strictEq = .bool true → value .eq = .bool true) ∧
    value .lt = value' .gt ∧ value .le = value' .ge ∧
    ¬ (value .lt = .bool true ∧ value .gt = .bool true) ∧
    (a.eval defs = .undefined ∨ b.eval defs = .undefined →
      ∀ op ∈ [Operator.lt, .le, .gt, .ge], value op = .bool false) ∧
    (a.eval defs ≠ .undefined ∧ a.eval defs ≠ .null →
      b.eval defs ≠ .undefined ∧ b.eval defs ≠ .null →
      (value .eq = .bool true ↔ value .le = .bool true ∧ value .ge = .bool true)) := by
  intro value value'
  let v := a.eval defs
  let w := b.eval defs
  -- these operators evaluate both sides and compare the values
  have hcompare : ∀ op ∈ [Operator.strictEq, .eq, .lt, .le, .gt, .ge],
      value op = .bool (compareWith op v w) ∧ value' op = .bool (compareWith op w v) := by
    intro op hop
    simp only [List.mem_cons, List.not_mem_nil, or_false] at hop
    rcases hop with rfl | rfl | rfl | rfl | rfl | rfl <;> exact ⟨rfl, rfl⟩
  have hholds : ∀ op ∈ [Operator.strictEq, .eq, .lt, .le, .gt, .ge],
      (value op = .bool true ↔ compareWith op v w = true) := by
    intro op hop
    rw [(hcompare op hop).1, Value.bool.injEq]
  -- from here on every part is a fact about the two values alone
  obtain ⟨hlt, hle⟩ := compareWith_swap v w
  refine ⟨?_, ?_, ?_, ?_, ?_, ?_, ?_, ?_⟩
  · exact congrArg Value.bool (Value.looseEquals_comm v w)
  · exact congrArg Value.bool (Value.strictEquals_comm v w)
  · rw [hholds .strictEq (by decide), hholds .eq (by decide)]
    exact Value.looseEquals_of_strictEquals
  · exact congrArg Value.bool hlt
  · exact congrArg Value.bool hle
  · rw [hholds .lt (by decide), hholds .gt (by decide), ← Bool.and_eq_true, compareWith_lt_gt]
    exact Bool.false_ne_true
  · -- on either side the absent value leaves the pair without an order
    intro habsent op hop
    have hnone : v.compare? w = none := by
      rcases habsent with hv | hw
      · rw [show v = .undefined from hv]
        exact (Value.compare?_undefined w).1
      · rw [show w = .undefined from hw]
        exact (Value.compare?_undefined v).2
    rw [(hcompare op (by revert op; decide)).1, compareWith_of_unordered hnone op hop]
  · -- without null and the absent value, equality is the order with neither side first
    intro hv hw
    rw [hholds .eq (by decide), hholds .le (by decide), hholds .ge (by decide), ← Bool.and_eq_true,
      compareWith_le_ge, ← Value.looseEquals_eq_compare? hv hw]
    rfl

end Expr

end CondRegions
