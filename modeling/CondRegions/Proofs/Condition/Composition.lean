import CondRegions.Proofs.Condition.Context
import CondRegions.Region.Basic

/-!
# Conditions made of conditions

Texts of conditions can be put together: in parentheses, any condition is an operand of a negation
sign or of an operator. The trees of the parts are the operands of the new tree, moved to their
places.

* `Condition.parse_operand` — one token with blanks around it;
* `Condition.parse_negated` — a negation sign before a condition;
* `Condition.parse_joined` — an operator between two conditions, whichever it is.

The logical operators yield one of their operands, not a truth value. What decides a region is the
truth of it, and this is that of a conjunction or a disjunction (`Expr.isTruthy_eval_and`,
`Expr.isTruthy_eval_or`). `Condition.parse_holds_composed` puts the two together.
-/

namespace CondRegions

/-! ### Truth of composed expressions -/

namespace Expr

variable {α β : Type}

/-- The value of an expression does not depend on its annotations. -/
@[simp] theorem eval_map (f : α → β) (defs : Definitions) (e : Expr α) :
    (e.map f).eval defs = e.eval defs := by
  induction e with
  | literal | identifier => rfl
  | not note e ih => rw [Expr.map, Expr.eval, Expr.eval, ih]
  | binary note op l r ihl ihr =>
    -- annotations are changed, operators are not, so evaluation takes the same branch
    unfold Expr.map Expr.eval
    rw [ihl, ihr]

@[simp] theorem eval_shift (n : Nat) (defs : Definitions) (e : Expr Span) :
    (e.shift n).eval defs = e.eval defs :=
  eval_map _ defs e

theorem isTruthy_eval_not (note : α) (defs : Definitions) (e : Expr α) :
    ((Expr.not note e).eval defs).isTruthy = !(e.eval defs).isTruthy := rfl

theorem isTruthy_eval_and (note : α) (defs : Definitions) (l r : Expr α) :
    ((Expr.binary note .and l r).eval defs).isTruthy =
      ((l.eval defs).isTruthy && (r.eval defs).isTruthy) := by
  -- the value is that of one operand; which one, the truth of the left one decides
  show Value.isTruthy (if (l.eval defs).isTruthy then r.eval defs else l.eval defs) = _
  split
  · next hl => rw [hl, Bool.true_and]
  · next hl => rw [Bool.eq_false_iff.mpr hl, Bool.false_and]

theorem isTruthy_eval_or (note : α) (defs : Definitions) (l r : Expr α) :
    ((Expr.binary note .or l r).eval defs).isTruthy =
      ((l.eval defs).isTruthy || (r.eval defs).isTruthy) := by
  show Value.isTruthy (if (l.eval defs).isTruthy then l.eval defs else r.eval defs) = _
  split
  · next hl => rw [hl, Bool.true_or]
  · next hl => rw [Bool.eq_false_iff.mpr hl, Bool.false_or]

end Expr

namespace Condition

open CondRegions.Parser

variable {s t : String} {a b : Expr Span}

/-! ### Trees of composed texts -/

/-- What the parser reads from a text that begins with a visible character is the tree of it. -/
theorem parse_of_runFrom {text : String} {c : Char} {cs : List Char} {e : Expr Span}
    (htext : text.toList = c :: cs) (hc : isWhiteSpace c = false)
    (h : runFrom (.due [] .fresh) 0 (c :: cs) = .ok e) : parse text = .ok e := by
  -- the text is not blank, so what the run gives is what the parser gives
  refine parse_eq_ok_iff.mpr ⟨fun hblank => ?_, ?_⟩
  · rw [hblank c (by rw [htext]; exact List.mem_cons_self)] at hc
    cases hc
  · rw [htext]
    exact h

/-- **One token as a condition**, with blanks around it. If it is read as an operand, this is the
tree. -/
theorem parse_operand {text : String} {before cs after : List Char} {t : Token} {e : Expr Span}
    (htext : text.toList = before ++ cs ++ after) (hbefore : Text.IsBlanks before)
    (h : Token.Lexeme t cs after) (hafter : Text.IsBlanks after)
    (hstep : step (.due [] .fresh)
      ⟨t, ⟨Text.byteLength before, Text.byteLength before + Text.byteLength cs⟩⟩ =
        .ok (.read [] [] e)) :
    parse text = .ok e := by
  rw [parse_eq_ok_iff, htext]
  constructor
  · -- a token has a visible character, so the text is not blank
    intro hblank
    obtain ⟨c, hc, hvisible⟩ := h.spells.exists_not_isWhiteSpace
    rw [hblank c (List.mem_append_left _ (List.mem_append_right _ hc))] at hvisible
    cases hvisible
  · -- the token leads to a state behind an operand, and blanks leave it there
    have htoken := runFrom_token hbefore h (.due [] .fresh) 0
    dsimp only at htoken
    rw [Nat.zero_add, hstep] at htoken
    calc run (Lexed.ofText (before ++ cs ++ after))
        = runFrom (.read [] [] e) (Text.byteLength before + Text.byteLength cs) after := htoken
      _ = .ok e := runFrom_blanks hafter [] e _

/-- **A negated condition.** -/
theorem parse_negated (h : parse s = .ok a) :
    parse ("!(" ++ s ++ ")") = .ok (.not ⟨0, Text.byteLength s.toList + 3⟩ (a.shift 2)) := by
  have hrun := (parse_eq_ok_iff.mp h).2
  have htext : ("!(" ++ s ++ ")").toList = '!' :: ([] ++ ['('] ++ (s.toList ++ [')'])) := by
    rw [String.toList_append, String.toList_append, List.append_assoc]
    rfl
  have hbang : Token.Lexeme .bang ['!'] ([] ++ ['('] ++ (s.toList ++ [')'])) := .of_scan? rfl
  have hstop : 2 + Text.byteLength s.toList + 1 = Text.byteLength s.toList + 3 := by omega
  -- the sign is kept in the group, and the parenthesis behind the condition applies it
  refine parse_of_runFrom htext (by decide) ?_
  calc runFrom (.due [] .fresh) 0 ('!' :: ([] ++ ['('] ++ (s.toList ++ [')'])))
      = runFrom (.due [] ⟨[], [0]⟩) 1 ([] ++ ['('] ++ (s.toList ++ [')'])) :=
        runFrom_token .nil hbang (.due [] .fresh) 0
    _ = runFrom (.read [] [] (.not ⟨0, Text.byteLength s.toList + 3⟩ (a.shift 2)))
          (Text.byteLength s.toList + 3) [] :=
        runFrom_group hrun .nil rfl hstop ⟨[], [0]⟩ [] []
    _ = .ok (.not ⟨0, Text.byteLength s.toList + 3⟩ (a.shift 2)) := runFrom_nil [] _ _

/-- A chain of two operands is a tree with one operator. -/
theorem close_pair (op : Operator) (left right : Expr Span) :
    Chain.close [(left, op)] right = binary op left right := by
  cases op <;> rfl

/-- **Two conditions joined by an operator.** -/
theorem parse_joined (hs : parse s = .ok a) (ht : parse t = .ok b) (op : Operator) :
    parse ("(" ++ s ++ (") " ++ op.symbol ++ " (") ++ t ++ ")") =
      .ok (binary op (a.shift 1)
        (b.shift (Text.byteLength s.toList + Text.byteLength op.symbol.toList + 5))) := by
  have hfirst := (parse_eq_ok_iff.mp hs).2
  have hsecond := (parse_eq_ok_iff.mp ht).2
  -- the text is cut at the first group and at the operator
  let second := [' '] ++ ['('] ++ (t.toList ++ [')'])
  let joined := [' '] ++ op.symbol.toList ++ second
  have htext : ("(" ++ s ++ (") " ++ op.symbol ++ " (") ++ t ++ ")").toList =
      '(' :: (s.toList ++ ')' :: joined) := by
    simp only [String.toList_append, List.append_assoc]
    rfl
  have hop : Token.Lexeme (.operator op) op.symbol.toList second := by
    refine .of_scan? ?_
    cases op <;> rfl
  have hblank : Text.IsBlanks [' '] := by simp [Text.IsBlanks, isBlank]
  have hstop : 1 + Text.byteLength s.toList + 1 = Text.byteLength s.toList + 2 := by omega
  have hinner : Text.byteLength s.toList + 2 + 1 + Text.byteLength op.symbol.toList + 1 + 1 =
      Text.byteLength s.toList + Text.byteLength op.symbol.toList + 5 := by omega
  -- the run in four stages: a group, the operator, a group, the end of the text
  refine parse_of_runFrom htext (by decide) ?_
  calc runFrom (.due [] .fresh) 0 ('(' :: (s.toList ++ ')' :: joined))
      = runFrom (.read [] [] (a.shift 1)) (Text.byteLength s.toList + 2) joined :=
        runFrom_group hfirst .nil rfl hstop .fresh [] joined
    _ = runFrom (.due [] ⟨[(a.shift 1, op)], []⟩)
          (Text.byteLength s.toList + 2 + 1 + Text.byteLength op.symbol.toList) second := by
        rw [runFrom_token hblank hop, step_operator]
        rfl
    _ = runFrom (.read [] [(a.shift 1, op)]
          (b.shift (Text.byteLength s.toList + Text.byteLength op.symbol.toList + 5))) _ [] :=
        runFrom_group hsecond hblank hinner rfl ⟨[(a.shift 1, op)], []⟩ [] []
    _ = _ := by rw [runFrom_nil, close_pair]

/-! ### Outcomes of composed texts -/

/-- A directive that is not negated decides by the truth of the condition. -/
theorem holds_positive {kind : Kind} (hkind : kind.isNegated = false) (h : parse s = .ok a)
    (defs : Definitions) : holds kind s defs = .ok (a.eval defs).isTruthy := by
  unfold holds value
  rw [h, hkind]
  exact congrArg Except.ok (Bool.bne_false _)

/-- A negated directive decides against it. -/
theorem holds_negative {kind : Kind} (hkind : kind.isNegated = true) (h : parse s = .ok a)
    (defs : Definitions) : holds kind s defs = .ok !(a.eval defs).isTruthy := by
  unfold holds value
  rw [h, hkind]
  exact congrArg Except.ok (Bool.bne_true _)

/-- **Composition.** Let two conditions parse. With a negation sign before the first one in
parentheses, and with one of the logical operators between the two in parentheses, they parse too,
and their trees, moved to their places, are the operands. For the directives in their plain and in
their region form: the negative directive decides on a condition as the positive one on its
negation, and the positive one on a conjunction or a disjunction as the connective of what it
decides on the parts. -/
theorem parse_holds_composed (s t : String) (a b : Expr Span) (hs : parse s = .ok a)
    (ht : parse t = .ok b) :
    parse ("!(" ++ s ++ ")") = .ok (.not ⟨0, Text.byteLength s.toList + 3⟩ (a.shift 2)) ∧
    parse ("(" ++ s ++ ") && (" ++ t ++ ")") =
      .ok (binary .and (a.shift 1) (b.shift (Text.byteLength s.toList + 7))) ∧
    parse ("(" ++ s ++ ") || (" ++ t ++ ")") =
      .ok (binary .or (a.shift 1) (b.shift (Text.byteLength s.toList + 7))) ∧
    ∀ (defs : Definitions) (positive negative : Kind),
      (positive, negative) ∈ [(Kind.ifdef, Kind.ifndef), (Kind.regionIfdef, Kind.regionIfndef)] →
      holds negative s defs = holds positive ("!(" ++ s ++ ")") defs ∧
      ∃ x y, holds positive s defs = .ok x ∧ holds positive t defs = .ok y ∧
        holds positive ("!(" ++ s ++ ")") defs = .ok (!x) ∧
        holds positive ("(" ++ s ++ ") && (" ++ t ++ ")") defs = .ok (x && y) ∧
        holds positive ("(" ++ s ++ ") || (" ++ t ++ ")") defs = .ok (x || y) := by
  have hnot := parse_negated hs
  have hand : parse ("(" ++ s ++ ") && (" ++ t ++ ")") = .ok (binary .and (a.shift 1) _) :=
    parse_joined hs ht .and
  have hor : parse ("(" ++ s ++ ") || (" ++ t ++ ")") = .ok (binary .or (a.shift 1) _) :=
    parse_joined hs ht .or
  refine ⟨hnot, hand, hor, ?_⟩
  intro defs positive negative hkinds
  -- of the two kinds of directive, only which one is negated matters
  obtain ⟨hpositive, hnegative⟩ : positive.isNegated = false ∧ negative.isNegated = true := by
    rcases (by simpa using hkinds : _ ∨ _) with ⟨rfl, rfl⟩ | ⟨rfl, rfl⟩ <;> exact ⟨rfl, rfl⟩
  have hnegated : holds positive ("!(" ++ s ++ ")") defs = .ok !(a.eval defs).isTruthy := by
    rw [holds_positive hpositive hnot, Expr.isTruthy_eval_not, Expr.eval_shift]
  -- moving a tree does not change its value, so the parts decide as they do alone
  refine ⟨?_, _, _, holds_positive hpositive hs defs, holds_positive hpositive ht defs, hnegated,
    ?_, ?_⟩
  · rw [holds_negative hnegative hs, hnegated]
  · unfold binary at hand
    rw [holds_positive hpositive hand, Expr.isTruthy_eval_and, Expr.eval_shift, Expr.eval_shift]
  · unfold binary at hor
    rw [holds_positive hpositive hor, Expr.isTruthy_eval_or, Expr.eval_shift, Expr.eval_shift]

/-- The theorem at a condition with a parenthesis in a string, an operator that binds less tightly
than the conjunction, and a blank at its end. -/
theorem parse_holds_composed_loose :
    let text := "a == 'é)' || 0\t"
    let negation := "!(a == 'é)' || 0\t)"
    ∃ a b, parse text = .ok a ∧ parse "!b" = .ok b ∧
      parse "(a == 'é)' || 0\t) && (!b)" = .ok (binary .and (a.shift 1) (b.shift 23)) ∧
      ∀ defs, holds .regionIfndef text defs = holds .regionIfdef negation defs := by
  intro text negation
  let a : Expr Span :=
    .binary ⟨0, 15⟩ .or
      (.binary ⟨0, 10⟩ .eq (.identifier ⟨0, 1⟩ "a") (.literal ⟨5, 10⟩ (.string "é)")))
      (.literal ⟨14, 15⟩ (.number .zero))
  have hs : parse "a == 'é)' || 0\t" = .ok a := by decide +kernel
  have ht : parse "!b" = .ok (.not ⟨0, 2⟩ (.identifier ⟨1, 2⟩ "b")) := by decide +kernel
  obtain ⟨-, hand, -, hkinds⟩ := parse_holds_composed _ _ _ _ hs ht
  exact ⟨_, _, hs, ht, hand, fun defs => (hkinds defs .regionIfdef .regionIfndef (by decide)).1⟩

end Condition

end CondRegions
