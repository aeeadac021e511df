import CondRegions.Condition.Expr
import CondRegions.Condition.Token

/-!
# The grammar of conditions

The grammar is layered. A condition is a chain of operands at the loosest level, joined by the
operators of that level; the operands are chains at the next tighter level, and so on through the
four levels of binding. Below them stand negation signs, and below these parentheses, literals and
identifiers. It is an ordinary context-free grammar over tokens: a repetition is a nonterminal of
its own (`Tail`).

* `Phrase` — the derivation trees, one type for each layer;
* `Phrase.yield` — the tokens that a derivation derives;
* `Phrase.tree` — the expression of a derivation: every level folded to the left, parentheses
  erased, each negation sign one node;
* `Phrase.eq_of_yield` — the grammar is unambiguous.
-/

namespace CondRegions

/-! ### Derivations -/

/-- The layers of the grammar: chains of a level, signed operands, and what cannot be divided. -/
inductive Layer where
  | chain (l : Level)
  | unary
  | primary
deriving DecidableEq, Repr

/-- The layer of the operands of a level. -/
def Level.operand : Level → Layer
  | .or => .chain .and
  | .and => .chain .equality
  | .equality => .chain .relational
  | .relational => .unary

mutual

/-- **Derivations** of a layer. -/
inductive Phrase : Layer → Type where
  /-- An operand, and the operators of the level with their operands. -/
  | chain {l : Level} (first : Phrase l.operand) (rest : Tail l) : Phrase (.chain l)
  /-- A signed operand behind a negation sign. -/
  | not (operand : Phrase .unary) : Phrase .unary
  /-- An operand without a sign. -/
  | bare (operand : Phrase .primary) : Phrase .unary
  | parens (inner : Phrase (.chain .or)) : Phrase .primary
  | literal (value : Value) : Phrase .primary
  | identifier (name : String) : Phrase .primary

/-- Derivations of the repetition in a chain. -/
inductive Tail : Level → Type where
  | nil {l : Level} : Tail l
  | cons {l : Level} (op : Operator) (level : op.level = l) (next : Phrase l.operand)
      (rest : Tail l) : Tail l

end

/-- A derivation of a whole condition. -/
abbrev Sentence := Phrase (.chain .or)

mutual

/-- The tokens of a derivation. -/
def Phrase.yield : {n : Layer} → Phrase n → List Token
  | _, .chain first rest => first.yield ++ rest.yield
  | _, .not operand => .bang :: operand.yield
  | _, .bare operand => operand.yield
  | _, .parens inner => .openParen :: inner.yield ++ [.closeParen]
  | _, .literal v => [.literal v]
  | _, .identifier name => [.identifier name]

/-- The tokens of a repetition. -/
def Tail.yield : {l : Level} → Tail l → List Token
  | _, .nil => []
  | _, .cons op _ next rest => .operator op :: (next.yield ++ rest.yield)

end

mutual

/-- **The expression of a derivation.** -/
def Phrase.tree : {n : Layer} → Phrase n → Expr Unit
  | _, .chain first rest => rest.fold first.tree
  | _, .not operand => .not () operand.tree
  | _, .bare operand => operand.tree
  | _, .parens inner => inner.tree
  | _, .literal v => .literal () v
  | _, .identifier name => .identifier () name

/-- The expression of a repetition behind the operand `left`, grouped to the left. -/
def Tail.fold : {l : Level} → Tail l → Expr Unit → Expr Unit
  | _, .nil, left => left
  | _, .cons op _ next rest, left => rest.fold (.binary () op left next.tree)

end

/-- Every derivation has a token. -/
theorem Phrase.yield_ne_nil {n : Layer} : (p : Phrase n) → p.yield ≠ []
  | .chain first _ => List.append_ne_nil_of_left_ne_nil first.yield_ne_nil _
  | .bare operand => operand.yield_ne_nil
  | .not _ | .parens _ | .literal _ | .identifier _ => List.cons_ne_nil _ _

/-! ### Longer chains -/

/-- A repetition with one more operator and operand at its end. -/
def Tail.concat {l : Level} : Tail l → (op : Operator) → op.level = l → Phrase l.operand → Tail l
  | .nil, op, level, next => .cons op level next .nil
  | .cons op' level' next' rest, op, level, next =>
    .cons op' level' next' (rest.concat op level next)

theorem Tail.yield_concat {l : Level} (op : Operator) (level : op.level = l)
    (next : Phrase l.operand) : (t : Tail l) →
    (t.concat op level next).yield = t.yield ++ .operator op :: next.yield
  | .nil => by
    unfold Tail.concat
    simp only [Tail.yield, List.append_nil, List.nil_append]
  | .cons op' level' next' rest => by
    rw [Tail.concat, Tail.yield, Tail.yield, rest.yield_concat op level next, List.cons_append,
      List.append_assoc]

/-- The last operator of a chain is the root of its expression. -/
theorem Tail.fold_concat {l : Level} (op : Operator) (level : op.level = l)
    (next : Phrase l.operand) : (t : Tail l) → (left : Expr Unit) →
    (t.concat op level next).fold left = .binary () op (t.fold left) next.tree
  | .nil, _ => rfl
  | .cons _ _ _ rest, _ => rest.fold_concat op level next _

/-! ### Unambiguity -/

/-- How tightly a level binds. -/
def Level.rank : Level → Nat
  | .or => 0
  | .and => 1
  | .equality => 2
  | .relational => 3

/-- How tightly the operators around a layer may bind at most: less tightly than this. -/
def Layer.rank : Layer → Nat
  | .chain l => l.rank
  | .unary => 4
  | .primary => 4

/-- Operands bind more tightly than the operators between them. -/
theorem Level.rank_lt_operand (l : Level) : l.rank < l.operand.rank := by
  cases l <;> decide

/-- What follows does not go on with the layer: an operator at its start binds more loosely. -/
def Layer.Stops (n : Layer) (rest : List Token) : Prop :=
  ∀ op, rest.head? = some (.operator op) → op.level.rank < n.rank

theorem Layer.stops_nil (n : Layer) : n.Stops [] := nofun

theorem Layer.stops_closeParen (n : Layer) (rest : List Token) :
    n.Stops (.closeParen :: rest) := nofun

/-- What follows an operand in a chain does not go on with the operand. -/
theorem Layer.Stops.operand {l : Level} {rest : List Token} (h : (Layer.chain l).Stops rest)
    (tail : Tail l) : l.operand.Stops (tail.yield ++ rest) := by
  intro op hop
  -- behind the operand comes an operator of the level, or what follows the whole chain
  cases tail with
  | nil => exact Nat.lt_trans (h op hop) l.rank_lt_operand
  | cons op' level next more =>
    obtain rfl : op' = op := by simpa [Tail.yield] using hop
    rw [level]
    exact l.rank_lt_operand

/-- What cannot be divided does not begin with a negation sign. -/
theorem Phrase.yield_ne_bang (p : Phrase .primary) (rest more : List Token) :
    p.yield ++ rest ≠ .bang :: more := by
  cases p <;> simp [Phrase.yield]

mutual

/-- **Unique derivations.** The tokens of a derivation determine it, and where it ends, if what
follows does not go on with it. -/
theorem Phrase.unique {n : Layer} : (p q : Phrase n) → {rest rest' : List Token} →
    p.yield ++ rest = q.yield ++ rest' → n.Stops rest → n.Stops rest' → p = q ∧ rest = rest'
  | .chain first tail, .chain first' tail', rest, rest', h, hrest, hrest' => by
    rw [Phrase.yield, Phrase.yield, List.append_assoc, List.append_assoc] at h
    -- neither first operand goes on with what follows it
    obtain ⟨rfl, htail⟩ := first.unique first' h (hrest.operand tail) (hrest'.operand tail')
    obtain ⟨rfl, rfl⟩ := tail.unique tail' htail hrest hrest'
    exact ⟨rfl, rfl⟩
  | .not p, .not q, rest, rest', h, hrest, hrest' => by
    -- signs are taken off one by one, on both sides
    rw [Phrase.yield, Phrase.yield, List.cons_append, List.cons_append] at h
    obtain ⟨rfl, rfl⟩ := p.unique q (List.cons.inj h).2 hrest hrest'
    exact ⟨rfl, rfl⟩
  | .bare p, .bare q, rest, rest', h, hrest, hrest' => by
    rw [Phrase.yield, Phrase.yield] at h
    obtain ⟨rfl, rfl⟩ := p.unique q h hrest hrest'
    exact ⟨rfl, rfl⟩
  | .not p, .bare q, rest, rest', h, _, _ => by
    -- one of the two would begin with a sign, the other with a parenthesis, a literal or a name
    rw [Phrase.yield, Phrase.yield, List.cons_append] at h
    exact absurd h.symm (q.yield_ne_bang rest' _)
  | .bare p, .not q, rest, rest', h, _, _ => by
    rw [Phrase.yield, Phrase.yield, List.cons_append] at h
    exact absurd h (p.yield_ne_bang rest _)
  | .parens p, .parens q, rest, rest', h, _, _ => by
    rw [Phrase.yield, Phrase.yield] at h
    simp only [List.cons_append, List.append_assoc, List.nil_append, List.cons.injEq, true_and] at h
    -- a closing parenthesis goes on with nothing
    obtain ⟨rfl, hclose⟩ := p.unique q h (Layer.stops_closeParen _ _) (Layer.stops_closeParen _ _)
    exact ⟨rfl, (List.cons.inj hclose).2⟩
  | .literal v, .literal w, rest, rest', h, _, _ => by
    obtain ⟨heq, hrest⟩ := List.cons.inj h
    obtain rfl := Token.literal.inj heq
    exact ⟨rfl, hrest⟩
  | .identifier name, .identifier name', rest, rest', h, _, _ => by
    obtain ⟨heq, hrest⟩ := List.cons.inj h
    obtain rfl := Token.identifier.inj heq
    exact ⟨rfl, hrest⟩
  | .parens _, .literal _, _, _, h, _, _ | .parens _, .identifier _, _, _, h, _, _
  | .literal _, .parens _, _, _, h, _, _ | .literal _, .identifier _, _, _, h, _, _
  | .identifier _, .parens _, _, _, h, _, _ | .identifier _, .literal _, _, _, h, _, _ => by
    cases (List.cons.inj h).1

theorem Tail.unique {l : Level} : (t u : Tail l) → {rest rest' : List Token} →
    t.yield ++ rest = u.yield ++ rest' → (Layer.chain l).Stops rest → (Layer.chain l).Stops rest' →
    t = u ∧ rest = rest'
  | .nil, .nil, rest, rest', h, _, _ => ⟨rfl, h⟩
  | .nil, .cons op level next more, rest, rest', h, hrest, _ => by
    -- an operator of the level would go on with the chain
    have hlt := hrest op (by rw [show rest = _ from h]; rfl)
    rw [level] at hlt
    exact absurd hlt (Nat.lt_irrefl _)
  | .cons op level next more, .nil, rest, rest', h, _, hrest' => by
    -- the same from the other side
    have hlt := hrest' op (by rw [show rest' = _ from h.symm]; rfl)
    rw [level] at hlt
    exact absurd hlt (Nat.lt_irrefl _)
  | .cons op level next more, .cons op' level' next' more', rest, rest', h, hrest, hrest' => by
    rw [Tail.yield, Tail.yield, List.cons_append, List.cons_append] at h
    -- the operators agree, so do the operands behind them, and so does what is left of the chains
    obtain ⟨hop, hnext⟩ := List.cons.inj h
    obtain rfl := Token.operator.inj hop
    rw [List.append_assoc, List.append_assoc] at hnext
    obtain ⟨rfl, hmore⟩ := next.unique next' hnext (hrest.operand more) (hrest'.operand more')
    obtain ⟨rfl, rfl⟩ := more.unique more' hmore hrest hrest'
    exact ⟨rfl, rfl⟩

end

/-- **The grammar is unambiguous.** A sequence of tokens has one derivation at most. -/
theorem Phrase.eq_of_yield {n : Layer} {p q : Phrase n} (h : p.yield = q.yield) : p = q := by
  -- nothing follows the whole sequence, so nothing goes on with it
  have h' : p.yield ++ [] = q.yield ++ [] := by rw [h]
  exact (p.unique q h' n.stops_nil n.stops_nil).1

/-! ### Names -/

/-- The names of the identifiers of an expression, from the left. -/
def Expr.names {α : Type} : Expr α → List String
  | .literal _ _ => []
  | .identifier _ name => [name]
  | .not _ e => e.names
  | .binary _ _ l r => l.names ++ r.names

@[simp] theorem Expr.names_erase {α : Type} (e : Expr α) : e.erase.names = e.names := by
  unfold Expr.erase
  induction e with
  | literal | identifier => rfl
  | not note e ih => exact ih
  | binary note op l r ihl ihr => rw [Expr.map, Expr.names, Expr.names, ihl, ihr]

mutual

/-- The names of an expression are among the tokens that it is derived from. -/
theorem Phrase.mem_yield_of_mem_names {n : Layer} : (p : Phrase n) → {name : String} →
    name ∈ p.tree.names → .identifier name ∈ p.yield
  | .chain first tail, name, h => by
    rw [Phrase.yield, List.mem_append]
    exact (tail.mem_yield_of_mem_names _ h).imp_left first.mem_yield_of_mem_names
  | .not operand, name, h => List.mem_cons_of_mem _ (operand.mem_yield_of_mem_names h)
  | .bare operand, name, h => operand.mem_yield_of_mem_names h
  | .parens inner, name, h =>
    List.mem_append_left _ (List.mem_cons_of_mem _ (inner.mem_yield_of_mem_names h))
  | .identifier name', name, h => by
    rw [List.mem_singleton.mp h]
    exact List.mem_singleton_self _

theorem Tail.mem_yield_of_mem_names {l : Level} : (t : Tail l) → (left : Expr Unit) →
    {name : String} → name ∈ (t.fold left).names → name ∈ left.names ∨ .identifier name ∈ t.yield
  | .nil, left, name, h => .inl h
  | .cons op _ next rest, left, name, h => by
    rw [Tail.yield, List.mem_cons, List.mem_append]
    -- the names of the new left operand are those of the old one and those of the next one
    rcases rest.mem_yield_of_mem_names _ h with hleft | hrest
    · rcases List.mem_append.mp hleft with hleft | hnext
      · exact .inl hleft
      · exact .inr (.inr (.inl (next.mem_yield_of_mem_names hnext)))
    · exact .inr (.inr (.inr hrest))

end

end CondRegions
