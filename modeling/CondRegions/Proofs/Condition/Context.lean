import CondRegions.Proofs.Condition.Parsing
import CondRegions.Proofs.Condition.Seam

/-!
# Conditions inside parentheses

A condition between parentheses in a longer text is read as it is read alone. Three things could go
wrong, and do not.

*Tokens.* A closing parenthesis behind a token takes nothing from it and adds nothing to it: the
lexemes of the condition are lexemes in the longer text (`Token.Lexeme.before_delimiter`). Blanks at
the end of the condition come before the parenthesis.

*Places.* All places of the condition are moved by the place where it starts, and folding a chain
moves with them (`Parser.Chain.close_shift`).

*Groups.* The groups around the condition lie under its own groups and are not touched before it
ends: a step of the parser on the condition is a step on the longer text (`Parser.step_inside`). At
its end, the chain that a parse of the condition alone would close is closed by the parenthesis, so
the tree is the same (`Parser.runFrom_inside`).

`Parser.runFrom_group` is the result: a parenthesised condition is one operand.
-/

namespace CondRegions

/-! ### Moved trees -/

/-- The tree of a condition that is moved right by `n` bytes. -/
def Expr.shift (n : Nat) (e : Expr Span) : Expr Span :=
  e.map (·.shift n)

@[simp] theorem Expr.note_shift (n : Nat) (e : Expr Span) : (e.shift n).note = e.note.shift n := by
  cases e <;> rfl

namespace Parser

@[simp] theorem binary_shift (n : Nat) (op : Operator) (left right : Expr Span) :
    binary op (left.shift n) (right.shift n) = (binary op left right).shift n := by
  unfold binary
  rw [Expr.note_shift, Expr.note_shift]
  rfl

/-- Operators with the operands behind them, moved. -/
def shiftRest (n : Nat) (rest : List (Operator × Expr Span)) : List (Operator × Expr Span) :=
  rest.map fun (op, e) => (op, e.shift n)

/-- A chain read from the left, moved. -/
def shiftChain (n : Nat) (chain : Expr Span × List (Operator × Expr Span)) :
    Expr Span × List (Operator × Expr Span) :=
  (chain.1.shift n, shiftRest n chain.2)

theorem foldLevel_shift (n : Nat) (l : Level) (first : Expr Span)
    (rest : List (Operator × Expr Span)) :
    foldLevel l (first.shift n) (shiftRest n rest) = shiftChain n (foldLevel l first rest) := by
  -- the operand on the left grows while the chain is folded, so it is arbitrary
  induction rest generalizing first with
  | nil => rfl
  | cons operand rest ih =>
    obtain ⟨op, e⟩ := operand
    show foldLevel l (first.shift n) ((op, e.shift n) :: shiftRest n rest) = _
    unfold foldLevel
    split
    · rw [binary_shift, ih]
    · rw [ih]
      rfl

theorem foldChain_shift (n : Nat) (first : Expr Span) (rest : List (Operator × Expr Span)) :
    foldChain (first.shift n) (shiftRest n rest) = (foldChain first rest).shift n := by
  have hlevels : levels.foldl (fun chain l => foldLevel l chain.1 chain.2)
      (shiftChain n (first, rest)) =
      shiftChain n (levels.foldl (fun chain l => foldLevel l chain.1 chain.2) (first, rest)) :=
    -- each level moves with its chain, so all levels do, one after the other
    List.foldl_hom (shiftChain n) fun chain l => foldLevel_shift n l chain.1 chain.2
  exact congrArg Prod.fst hlevels

/-- The operands and operators read so far, moved. -/
def Chain.shift (n : Nat) (chain : Chain) : Chain :=
  chain.map fun (e, op) => (e.shift n, op)

theorem Chain.unroll_shift (n : Nat) (chain : Chain) (last : Expr Span)
    (rest : List (Operator × Expr Span)) :
    Chain.unroll (last.shift n) (shiftRest n rest) (chain.shift n) =
      shiftChain n (Chain.unroll last rest chain) := by
  -- unrolling puts the last operand in front of the rest, so both are arbitrary
  induction chain generalizing last rest with
  | nil => rfl
  | cons operand chain ih => exact ih operand.1 ((operand.2, last) :: rest)

/-- **Closing a chain that is moved** gives the tree, moved. -/
theorem Chain.close_shift (n : Nat) (chain : Chain) (last : Expr Span) :
    (chain.shift n).close (last.shift n) = (chain.close last).shift n := by
  unfold Chain.close
  rw [show Chain.unroll (last.shift n) [] (chain.shift n) = _ from chain.unroll_shift n last []]
  exact foldChain_shift n _ _

theorem negate_shift (n : Nat) (bangs : List Nat) (stop : Nat) (e : Expr Span) :
    negate (bangs.map (· + n)) (stop + n) (e.shift n) = (negate bangs stop e).shift n := by
  have hfirst : (bangs.map (· + n)).getLastD (stop + n) = bangs.getLastD stop + n := by
    rw [List.getLastD_eq_getLast?, List.getLastD_eq_getLast?, List.getLast?_map]
    cases bangs.getLast? <;> rfl
  unfold negate
  -- the first sign is the last one of the list, and moves with it
  rw [hfirst, List.foldl_map]
  -- the nodes of all signs have one span, which is moved
  exact List.foldl_hom (Expr.shift n) fun e _ => rfl

/-! ### Reading on -/

/-- The tree of a text that starts at `offset`, read on from a state. -/
def runFrom (state : State) (offset : Nat) (cs : List Char) : Except Failure (Expr Span) :=
  let lexed := Lexed.fromOffset offset cs
  (lexed.tokens.foldlM step state).bind (finish lexed)

/-- One token is read, and the rest is read from where it leads. -/
theorem runFrom_token {blanks cs rest : List Char} {t : Token} (hblanks : Text.IsBlanks blanks)
    (h : Token.Lexeme t cs rest) (state : State) (offset : Nat) :
    let start := offset + Text.byteLength blanks
    let stop := start + Text.byteLength cs
    runFrom state offset (blanks ++ cs ++ rest) =
      (step state ⟨t, ⟨start, stop⟩⟩).bind fun next => runFrom next stop rest := by
  intro start stop
  unfold runFrom
  rw [Lexed.fromOffset_some hblanks h]
  dsimp only
  rw [List.foldlM_cons]
  -- a failure ends both sides at once
  cases step state ⟨t, ⟨start, stop⟩⟩ with
  | error failure => rfl
  | ok next => rfl

/-- Where no token follows, the reading is over. It ends well at the end of the text, behind an
operand outside all groups. -/
theorem runFrom_stop {cs : List Char} (hnone : Token.scan? (Text.skipBlanks cs) = none)
    {state : State} {offset : Nat} {e : Expr Span} (h : runFrom state offset cs = .ok e) :
    Text.IsBlanks cs ∧ ∃ chain operand, state = .read [] chain operand ∧
      e = chain.close operand := by
  unfold runFrom at h
  rw [Lexed.fromOffset_none hnone] at h
  change finish _ state = .ok e at h
  unfold finish at h
  split at h
  · -- the reading is complete, so nothing but blanks was left
    next chain operand hcomplete =>
    obtain ⟨blanks, hblanks, hcs, -⟩ := Text.skipBlanks_cases cs
    rw [List.isEmpty_iff.mp hcomplete, List.append_nil] at hcs
    rw [hcs]
    exact ⟨hblanks, chain, operand, rfl, (Except.ok.inj h).symm⟩
  · cases h

/-- Behind the last operand, blanks may follow. -/
theorem runFrom_blanks {blanks : List Char} (h : Text.IsBlanks blanks) (chain : Chain)
    (e : Expr Span)
    (offset : Nat) : runFrom (.read [] chain e) offset blanks = .ok (chain.close e) := by
  have hskip := Text.skipBlanks_blanks h
  unfold runFrom
  rw [Lexed.fromOffset_none (by rw [hskip]; rfl), hskip]
  rfl

theorem runFrom_nil (chain : Chain) (e : Expr Span) (offset : Nat) :
    runFrom (.read [] chain e) offset [] = .ok (chain.close e) :=
  runFrom_blanks .nil chain e offset

/-! ### States inside a group -/

/-- A group, moved. -/
def Group.shift (n : Nat) (group : Group) : Group :=
  ⟨group.chain.shift n, group.bangs.map (· + n)⟩

/-- **A state inside groups.** What has been read is moved, and the given groups lie around it. -/
def State.inside (n : Nat) (around : List Group) : State → State
  | .due outer group => .due (outer.map (·.shift n) ++ around) (group.shift n)
  | .read outer chain e => .read (outer.map (·.shift n) ++ around) (chain.shift n) (e.shift n)

theorem State.inside_operand (n : Nat) (around outer : List Group) (group : Group) (stop : Nat)
    (e : Expr Span) :
    (State.read outer group.chain (negate group.bangs stop e)).inside n around =
      .read (outer.map (·.shift n) ++ around) (group.shift n).chain
        (negate (group.shift n).bangs (stop + n) (e.shift n)) := by
  rw [State.inside, ← negate_shift]
  rfl

theorem step_operator (outer : List Group) (chain : Chain) (e : Expr Span) (op : Operator)
    (span : Span) :
    step (.read outer chain e) ⟨.operator op, span⟩ = .ok (.due outer ⟨(e, op) :: chain, []⟩) := by
  cases outer <;> rfl

/-- **One token inside groups.** A token that is accepted alone is accepted there, and leads to the
same state inside the groups. -/
theorem step_inside {state next : State} {t : Token} {span : Span}
    (h : step state ⟨t, span⟩ = .ok next) (n : Nat) (around : List Group) :
    step (state.inside n around) ⟨t, span.shift n⟩ = .ok (next.inside n around) := by
  -- one case for each token that the state takes; the others contradict `h`
  cases state with
  | due outer group =>
    cases t with
    | bang | openParen =>
      obtain rfl := Except.ok.inj h
      rfl
    | literal | identifier =>
      obtain rfl := Except.ok.inj h
      rw [State.inside_operand]
      rfl
    | closeParen => cases h
    | operator op => cases op <;> cases h
  | read outer chain e =>
    cases t with
    | operator op =>
      rw [step_operator] at h
      obtain rfl := Except.ok.inj h
      exact step_operator _ _ _ _ _
    | closeParen =>
      -- only a group of the state itself can have been closed
      cases outer with
      | nil => cases h
      | cons group outer =>
        obtain rfl := Except.ok.inj h
        rw [State.inside_operand, ← Chain.close_shift]
        rfl
    | bang | openParen | literal | identifier => cases outer <;> cases h

/-- **A condition inside a group.** A text that is read to its end from a state is read, inside a
group and with a closing parenthesis behind it, as an operand of that group. -/
theorem runFrom_inside {cs : List Char} {state : State} {offset : Nat} {a : Expr Span}
    (h : runFrom state offset cs = .ok a) (n : Nat) (group : Group) (around : List Group)
    (rest : List Char) :
    let stop := offset + n + Text.byteLength cs + 1
    runFrom (state.inside n (group :: around)) (offset + n) (cs ++ ')' :: rest) =
      runFrom (.read around group.chain (negate group.bangs stop (a.shift n))) stop rest := by
  -- along the tokens of the condition; the state and the offset change with each of them
  induction cs using Lexed.reading_induction generalizing state offset with
  | stop cs hnone =>
    -- blanks are left, so the parenthesis comes next and closes the chain
    obtain ⟨hblanks, chain, operand, rfl, rfl⟩ := runFrom_stop hnone h
    have hclose : Token.Lexeme .closeParen [')'] rest := .of_scan? rfl
    rw [List.append_cons, runFrom_token hblanks hclose, ← Chain.close_shift]
    rfl
  | token blanks cs more t hblanks hlexeme ih =>
    -- the token stands in the longer text, and the parser takes it there too
    have hstart : offset + n + Text.byteLength blanks = offset + Text.byteLength blanks + n :=
      Nat.add_right_comm _ _ _
    have hstop : offset + Text.byteLength blanks + n + Text.byteLength cs =
        offset + Text.byteLength blanks + Text.byteLength cs + n := Nat.add_right_comm _ _ _
    rw [runFrom_token hblanks hlexeme] at h
    rw [List.append_assoc (blanks ++ cs), runFrom_token hblanks (hlexeme.before_delimiter rfl rest),
      hstart, hstop]
    cases hstep : step state ⟨t, ⟨offset + Text.byteLength blanks,
        offset + Text.byteLength blanks + Text.byteLength cs⟩⟩ with
    | error failure =>
      rw [hstep] at h
      cases h
    | ok next =>
      rw [hstep] at h
      have hlater := ih h
      have hinside := step_inside hstep n (group :: around)
      unfold Span.shift at hinside
      rw [hinside]
      simp only [Text.byteLength_append, ← Nat.add_assoc, hstart, hstop]
      exact hlater

/-- **A condition in parentheses** is one operand where an operand is due. It starts at `inner`, and
the parenthesis behind it ends at `stop`. -/
theorem runFrom_group {cs : List Char} {a : Expr Span} (h : run (Lexed.ofText cs) = .ok a)
    {blanks : List Char} (hblanks : Text.IsBlanks blanks) {offset inner stop : Nat}
    (hinner : offset + Text.byteLength blanks + 1 = inner)
    (hstop : inner + Text.byteLength cs + 1 = stop)
    (group : Group) (around : List Group) (rest : List Char) :
    runFrom (.due around group) offset (blanks ++ ['('] ++ (cs ++ ')' :: rest)) =
      runFrom (.read around group.chain (negate group.bangs stop (a.shift inner))) stop rest := by
  subst hinner hstop
  have hopen : Token.Lexeme .openParen ['('] (cs ++ ')' :: rest) := .of_scan? rfl
  have hrun : runFrom (.due [] .fresh) 0 cs = .ok a := h
  have hinside := runFrom_inside hrun (offset + Text.byteLength blanks + 1) group around rest
  rw [Nat.zero_add] at hinside
  -- the opening parenthesis puts the group aside, and a run inside it has been described
  calc runFrom (.due around group) offset (blanks ++ ['('] ++ (cs ++ ')' :: rest))
      = runFrom (.due (group :: around) .fresh) (offset + Text.byteLength blanks + 1)
        (cs ++ ')' :: rest) :=
        runFrom_token hblanks hopen (.due around group) offset
    _ = _ := hinside

end Parser

end CondRegions
