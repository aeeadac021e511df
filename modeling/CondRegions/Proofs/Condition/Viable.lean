import CondRegions.Proofs.Condition.Parsing

/-!
# Tokens that can be completed

A sequence of tokens is *viable* if some condition begins with it. What may stand next depends on
two things only: whether an operand is due, which the last token tells, and how many parentheses are
open (`Token.mayFollow`, `Token.mayEnd`). The grammar allows no less and no more.

*Along a run.* The parser knows both things: an operand is due behind the tokens exactly if its
state says so, and the groups around it are the parentheses that are open (`Parser.State.Follows`).
One token takes this along (`Parser.State.Follows.step`), so all tokens do. A token is accepted
exactly if it may stand next (`Parser.State.Follows.takes_iff`).

*Completion.* From every state the parser can be brought to the end: by an operand, if one is due,
and then by as many closing parentheses as are open (`Parser.Reaches.exists_sentence`). So tokens
are viable exactly if the parser accepts them (`viable_iff`), and the table says what the grammar
allows (`Viable.concat_iff`, `Viable.exists_sentence_iff`).
-/

namespace CondRegions

/-! ### What may stand next -/

namespace Token

/-- Whether an operand is due behind the tokens: at the start, and behind a negation sign, an
opening parenthesis or an operator. -/
def operandDue (ts : List Token) : Bool :=
  match ts.getLast? with
  | none | some .bang | some .openParen | some (.operator _) => true
  | some .closeParen | some (.literal _) | some (.identifier _) => false

/-- The number of parentheses that the tokens open. -/
def opened (ts : List Token) : Nat :=
  ts.count .openParen

/-- The number of parentheses that the tokens close. -/
def closed (ts : List Token) : Nat :=
  ts.count .closeParen

/-- **What may stand next.** Where an operand is due, an operand or a negation sign; behind an
operand, an operator, or a closing parenthesis if one is open. -/
def mayFollow (ts : List Token) : Token → Bool
  | .bang | .openParen | .literal _ | .identifier _ => operandDue ts
  | .operator _ => !operandDue ts
  | .closeParen => !operandDue ts && decide (closed ts < opened ts)

/-- Whether a condition may end behind the tokens: behind an operand, with no parenthesis open. -/
def mayEnd (ts : List Token) : Bool :=
  !operandDue ts && closed ts == opened ts

/-- Tokens that complete a condition: an operand, if one is due, and a closing parenthesis for each
that is open. -/
def completion (ts : List Token) : List Token :=
  (if operandDue ts then [.identifier "x"] else []) ++
    List.replicate (opened ts - closed ts) .closeParen

theorem opened_concat (ts : List Token) (t : Token) :
    opened (ts ++ [t]) = opened ts + if t = .openParen then 1 else 0 := by
  unfold opened
  rw [List.count_append, List.count_singleton]
  simp only [beq_iff_eq]

theorem closed_concat (ts : List Token) (t : Token) :
    closed (ts ++ [t]) = closed ts + if t = .closeParen then 1 else 0 := by
  unfold closed
  rw [List.count_append, List.count_singleton]
  simp only [beq_iff_eq]

theorem operandDue_concat (ts : List Token) (t : Token) :
    operandDue (ts ++ [t]) = operandDue [t] := by
  unfold operandDue
  rw [List.getLast?_concat]
  rfl

end Token

/-- **Viable tokens**: some condition begins with them. -/
def Viable (ts : List Token) : Prop :=
  ∃ (p : Sentence) (more : List Token), p.yield = ts ++ more

namespace Parser

open Token

/-! ### Steps that go well -/

/-- **The tokens that the parser takes**, and where each of them leads. -/
inductive Takes (span : Span) : State → Token → State → Prop where
  | bang (outer : List Group) (group : Group) :
      Takes span (.due outer group) .bang
        (.due outer { group with bangs := span.start :: group.bangs })
  | openParen (outer : List Group) (group : Group) :
      Takes span (.due outer group) .openParen (.due (group :: outer) .fresh)
  | literal (outer : List Group) (group : Group) (v : Value) :
      Takes span (.due outer group) (.literal v)
        (.read outer group.chain (negate group.bangs span.stop (.literal span v)))
  | identifier (outer : List Group) (group : Group) (name : String) :
      Takes span (.due outer group) (.identifier name)
        (.read outer group.chain (negate group.bangs span.stop (.identifier span name)))
  | operator (outer : List Group) (chain : Chain) (e : Expr Span) (op : Operator) :
      Takes span (.read outer chain e) (.operator op) (.due outer ⟨(e, op) :: chain, []⟩)
  | closeParen (group : Group) (outer : List Group) (chain : Chain) (e : Expr Span) :
      Takes span (.read (group :: outer) chain e) .closeParen
        (.read outer group.chain (negate group.bangs span.stop (chain.close e)))

theorem step_eq_ok_iff {state next : State} {t : Token} {span : Span} :
    step state ⟨t, span⟩ = .ok next ↔ Takes span state t next := by
  constructor
  · intro h
    -- the table of the parser, token by token
    cases state with
    | due outer group =>
      cases t with
      | bang => exact Except.ok.inj h ▸ .bang outer group
      | openParen => exact Except.ok.inj h ▸ .openParen outer group
      | literal v => exact Except.ok.inj h ▸ .literal outer group v
      | identifier name => exact Except.ok.inj h ▸ .identifier outer group name
      | closeParen => cases h
      | operator op => cases op <;> cases h
    | read outer chain e =>
      cases t with
      | operator op =>
        cases outer with
        | nil => exact Except.ok.inj h ▸ .operator [] chain e op
        | cons group outer => exact Except.ok.inj h ▸ .operator (group :: outer) chain e op
      | closeParen =>
        cases outer with
        | nil => cases h
        | cons group outer => exact Except.ok.inj h ▸ .closeParen group outer chain e
      | bang | openParen | literal | identifier => cases outer <;> cases h
  · intro h
    -- and back, by computing the step
    cases h with
    | operator outer => cases outer <;> rfl
    | bang | openParen | literal | identifier | closeParen => rfl

/-! ### What the parser knows -/

/-- Whether an operand is due. -/
def State.isDue : State → Bool
  | .due _ _ => true
  | .read _ _ _ => false

/-- The number of groups around the innermost one. -/
def State.depth : State → Nat
  | .due outer _ => outer.length
  | .read outer _ _ => outer.length

/-- **The state behind the tokens** knows whether an operand is due and how many parentheses are
open. -/
structure State.Follows (state : State) (ts : List Token) : Prop where
  due : state.isDue = operandDue ts
  depth : state.depth + closed ts = opened ts

namespace State.Follows

variable {state next : State} {ts : List Token} {t : Token} {span : Span}

theorem initial : (State.due [] .fresh).Follows [] :=
  ⟨rfl, rfl⟩

/-- **One token** takes along what the state knows. -/
theorem step (h : state.Follows ts) (hstep : Takes span state t next) :
    next.Follows (ts ++ [t]) := by
  have hdepth := h.depth
  refine ⟨?_, ?_⟩
  · -- whether an operand is due depends on the last token alone
    rw [operandDue_concat]
    cases hstep <;> rfl
  · -- parentheses change the depth, and no other token does
    rw [opened_concat, closed_concat]
    cases hstep <;>
      simp only [State.depth, List.length_cons, reduceCtorEq, if_true, if_false] at hdepth ⊢ <;>
      omega

/-- **A token is taken** exactly if it may stand next. -/
theorem takes_iff (h : state.Follows ts) (t : Token) (span : Span) :
    (∃ next, Takes span state t next) ↔ mayFollow ts t = true := by
  have hdue := h.due
  have hdepth := h.depth
  constructor
  · rintro ⟨next, hstep⟩
    -- a state takes only what the table allows
    cases hstep with
    | bang | openParen | literal | identifier => exact hdue.symm
    | operator => simp [mayFollow, ← hdue, isDue]
    | closeParen group outer chain e =>
      simp only [mayFollow, ← hdue, isDue, State.depth, List.length_cons] at hdepth ⊢
      simp
      omega
  · intro hfollow
    -- and what the table allows, the state takes; the other tokens contradict `hfollow`
    cases state with
    | due outer group =>
      cases t with
      | bang => exact ⟨_, .bang outer group⟩
      | openParen => exact ⟨_, .openParen outer group⟩
      | literal v => exact ⟨_, .literal outer group v⟩
      | identifier name => exact ⟨_, .identifier outer group name⟩
      | operator | closeParen => simp [mayFollow, ← hdue, isDue] at hfollow
    | read outer chain e =>
      cases t with
      | operator op => exact ⟨_, .operator outer chain e op⟩
      | closeParen =>
        cases outer with
        | cons group outer => exact ⟨_, .closeParen group outer chain e⟩
        | nil =>
          -- no group is open, so no parenthesis is
          simp [mayFollow, ← hdue, isDue, State.depth] at hfollow hdepth
          omega
      | bang | openParen | literal | identifier => simp [mayFollow, ← hdue, isDue] at hfollow

/-- The parser is ready to end exactly if the condition may end. -/
theorem isRead_iff (h : state.Follows ts) : IsRead [] state ↔ mayEnd ts = true := by
  have hdue := h.due
  have hdepth := h.depth
  unfold mayEnd
  rw [Bool.and_eq_true, beq_iff_eq, ← hdue]
  constructor
  · rintro ⟨chain, e, rfl⟩
    exact ⟨rfl, by simpa [State.depth] using hdepth⟩
  · rintro ⟨hread, hclosed⟩
    cases state with
    | due => cases hread
    | read outer chain e =>
      -- as many parentheses are closed as opened, so no group is left
      obtain rfl : outer = [] := by
        rw [hclosed] at hdepth
        exact List.length_eq_zero_iff.mp (Nat.add_eq_right.mp hdepth)
      exact ⟨chain, e, rfl⟩

end State.Follows

/-! ### Tokens that lead to a state -/

/-- **The tokens lead the parser** from the start to the state, whatever their places are. -/
inductive Reaches : List Token → State → Prop where
  | nil : Reaches [] (.due [] .fresh)
  | concat {ts : List Token} {state next : State} {t : Token} {span : Span} (h : Reaches ts state)
      (hstep : Takes span state t next) : Reaches (ts ++ [t]) next

namespace Reaches

variable {state next : State} {ts : List Token} {t : Token}

/-- **All tokens** take along what the state knows. -/
theorem follows (h : Reaches ts state) : state.Follows ts := by
  induction h with
  | nil => exact .initial
  | concat _ hstep ih => exact ih.step hstep

theorem of_concat (h : Reaches (ts ++ [t]) next) :
    ∃ state span, Reaches ts state ∧ Takes span state t next := by
  generalize hus : ts ++ [t] = us at h
  cases h with
  | nil => exact absurd hus (List.append_ne_nil_of_right_ne_nil ts (List.cons_ne_nil t []))
  | concat h hstep =>
    obtain ⟨rfl, ht⟩ := List.append_inj' hus rfl
    obtain rfl := List.singleton_inj.mp ht
    exact ⟨_, _, h, hstep⟩

theorem of_append {us : List Token} (h : Reaches (ts ++ us) next) : ∃ state, Reaches ts state := by
  -- the last token is taken off each time
  induction us using List.reverseRecOn generalizing next with
  | nil => exact ⟨next, by rwa [List.append_nil] at h⟩
  | append_singleton us t ih =>
    rw [← List.append_assoc] at h
    obtain ⟨state, span, hstate, -⟩ := h.of_concat
    exact ih hstate

/-- A run that goes on from a state that is reached. -/
theorem of_foldlM (h : Reaches ts state) {lexemes : List (Spanned Token)}
    (hrun : lexemes.foldlM step state = .ok next) : Reaches (ts ++ lexemes.map (·.value)) next := by
  -- along the run, adding its tokens at the end
  induction lexemes generalizing ts state with
  | nil =>
    obtain rfl := Except.ok.inj hrun
    rwa [List.map_nil, List.append_nil]
  | cons lexeme lexemes ih =>
    rw [List.foldlM_cons] at hrun
    cases hstep : step state lexeme with
    | error failure => rw [hstep] at hrun; cases hrun
    | ok middle =>
      rw [hstep] at hrun
      have hlater := ih (h.concat (step_eq_ok_iff.mp hstep)) hrun
      rwa [List.append_assoc, List.singleton_append, ← List.map_cons] at hlater

/-- Whatever is reached is reached by a run. -/
theorem exists_foldlM (h : Reaches ts state) :
    ∃ lexemes : List (Spanned Token), lexemes.map (·.value) = ts ∧
      lexemes.foldlM step (.due [] .fresh) = .ok state := by
  induction h with
  | nil => exact ⟨[], rfl, rfl⟩
  | @concat _ state next t span _ hstep ih =>
    obtain ⟨lexemes, rfl, hrun⟩ := ih
    refine ⟨lexemes ++ [⟨t, span⟩], List.map_append, ?_⟩
    rw [List.foldlM_append, hrun]
    show (step state ⟨t, span⟩).bind pure = .ok next
    rw [step_eq_ok_iff.mpr hstep]
    rfl

/-! ### Completion -/

/-- Where the parser is ready to end, it has read a condition. -/
theorem exists_sentence {chain : Chain} {e : Expr Span} (h : Reaches ts (.read [] chain e)) :
    ∃ p : Sentence, p.yield = ts := by
  obtain ⟨lexemes, rfl, hrun⟩ := h.exists_foldlM
  -- a run that is ready to end does end, with a tree, and the tree has a derivation
  have hok : run ⟨lexemes, 0, true⟩ = .ok (chain.close e) := by
    unfold run
    rw [hrun]
    rfl
  obtain ⟨-, p, hyield, -⟩ := derives_of_run hok
  exact ⟨p, hyield⟩

/-- Closing parentheses close all groups. -/
theorem close {outer : List Group} {chain : Chain} {e : Expr Span}
    (h : Reaches ts (.read outer chain e)) :
    ∃ chain' e', Reaches (ts ++ List.replicate outer.length .closeParen) (.read [] chain' e') := by
  -- one parenthesis for each group, the innermost first
  induction outer generalizing ts chain e with
  | nil => exact ⟨chain, e, by rwa [List.length_nil, List.replicate_zero, List.append_nil]⟩
  | cons group outer ih =>
    -- the place of the parenthesis does not matter
    obtain ⟨chain', e', hclosed⟩ := ih (h.concat (@Takes.closeParen ⟨0, 0⟩ group outer chain e))
    refine ⟨chain', e', ?_⟩
    rwa [List.length_cons, List.replicate_succ, List.append_cons]

/-- **Completion.** The tokens with their completion are a condition. -/
theorem exists_sentence_completion (h : Reaches ts state) :
    ∃ p : Sentence, p.yield = ts ++ completion ts := by
  have hfollows := h.follows
  have hdue := hfollows.due
  have hopen : opened ts - closed ts = state.depth := by
    have hdepth := hfollows.depth
    omega
  unfold completion
  rw [hopen, ← hdue]
  -- an operand is added if one is due, and then all groups are closed
  cases state with
  | read outer chain e =>
    obtain ⟨chain', e', hclosed⟩ := h.close
    exact hclosed.exists_sentence
  | due outer group =>
    obtain ⟨chain', e', hclosed⟩ := (h.concat (@Takes.identifier ⟨0, 0⟩ outer group "x")).close
    rw [List.append_assoc] at hclosed
    exact hclosed.exists_sentence

end Reaches

end Parser

open CondRegions.Parser

/-! ### Viable tokens -/

/-- The tokens of a condition make the parser ready to end. -/
theorem Phrase.reaches (p : Sentence) : ∃ state, Reaches p.yield state ∧ IsRead [] state := by
  -- they are accepted at any places, so the places are all taken to be the same
  let lexemes : List (Spanned Token) := p.yield.map fun t => ⟨t, ⟨0, 0⟩⟩
  have hvalues : lexemes.map (·.value) = p.yield := by
    rw [List.map_map]
    exact List.map_id p.yield
  obtain ⟨state, hrun, hread⟩ := p.accepted [] lexemes hvalues (.due [] .fresh) ⟨_, rfl⟩
  have hreaches := Reaches.nil.of_foldlM hrun
  rw [List.nil_append, hvalues] at hreaches
  exact ⟨state, hreaches, hread⟩

/-- **Tokens are viable** exactly if the parser accepts them. -/
theorem viable_iff {ts : List Token} : Viable ts ↔ ∃ state, Reaches ts state := by
  constructor
  · -- the parser takes the whole condition, so it takes its beginning
    rintro ⟨p, more, hyield⟩
    obtain ⟨last, hlast, -⟩ := p.reaches
    rw [hyield] at hlast
    exact hlast.of_append
  · rintro ⟨state, h⟩
    obtain ⟨p, hyield⟩ := h.exists_sentence_completion
    exact ⟨p, _, hyield⟩

namespace Viable

variable {ts : List Token}

/-- No more parentheses are closed than have been opened. -/
theorem closed_le_opened (h : Viable ts) : Token.closed ts ≤ Token.opened ts := by
  obtain ⟨state, hstate⟩ := viable_iff.mp h
  have hdepth := hstate.follows.depth
  omega

/-- **What the grammar allows next** is what may stand next. -/
theorem concat_iff (h : Viable ts) (t : Token) :
    Viable (ts ++ [t]) ↔ Token.mayFollow ts t = true := by
  constructor
  · -- the last token was taken in the state behind the others
    intro hnext
    obtain ⟨next, hreaches⟩ := viable_iff.mp hnext
    obtain ⟨state, span, hstate, hstep⟩ := hreaches.of_concat
    exact (hstate.follows.takes_iff t span).mp ⟨next, hstep⟩
  · intro hfollow
    obtain ⟨state, hstate⟩ := viable_iff.mp h
    obtain ⟨next, hstep⟩ := (hstate.follows.takes_iff t ⟨0, 0⟩).mpr hfollow
    exact viable_iff.mpr ⟨next, hstate.concat hstep⟩

/-- **Where the grammar allows the end**, a condition may end. -/
theorem exists_sentence_iff (h : Viable ts) :
    (∃ p : Sentence, p.yield = ts) ↔ Token.mayEnd ts = true := by
  constructor
  · rintro ⟨p, rfl⟩
    obtain ⟨state, hstate, hread⟩ := p.reaches
    exact hstate.follows.isRead_iff.mp hread
  · intro hend
    obtain ⟨state, hstate⟩ := viable_iff.mp h
    obtain ⟨chain, e, rfl⟩ := hstate.follows.isRead_iff.mpr hend
    exact hstate.exists_sentence

end Viable

end CondRegions
