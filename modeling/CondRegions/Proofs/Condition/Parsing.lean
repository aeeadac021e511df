import CondRegions.Condition.Parser
import CondRegions.Proofs.Condition.Grammar
import CondRegions.Proofs.Condition.Lexing

/-!
# Parsing is deriving

The parser reads the tokens once and keeps, for every open group, a flat chain of operands and
operators, which it folds level by level when the group closes. The grammar knows no chains of mixed
operators: each level has its own. The two agree.

*Soundness.* Along a run, what has been read is what the state holds: the groups that are open, the
chain of the innermost one, and an operand or negation signs (`Parser.State.Holds`). One token takes
this along (`Parser.step_holds`), so all tokens do. Folding a level turns a chain of operands of
that level into a chain of operands of the next looser level (`Parser.foldLevel_derives`); after
four levels one operand is left.

*Completeness.* The tokens of a derivation are never refused (`Phrase.accepted`). This needs no
trees: since the grammar is unambiguous, the tree that the parser builds is the right one as soon as
it builds any.

`Condition.parse_grammar` puts the two together with the reading of the tokens.
-/

namespace CondRegions

namespace Parser

/-! ### Expressions with derivations -/

/-- `e`, up to spans, is the expression of a derivation of `ts`. -/
def Derives (n : Layer) (ts : List Token) (e : Expr Span) : Prop :=
  ∃ p : Phrase n, p.yield = ts ∧ p.tree = e.erase

namespace Derives

variable {l : Level} {ts us : List Token} {e e' : Expr Span}

theorem literal (span : Span) (v : Value) : Derives .primary [.literal v] (.literal span v) :=
  ⟨.literal v, rfl, rfl⟩

theorem identifier (span : Span) (name : String) :
    Derives .primary [.identifier name] (.identifier span name) :=
  ⟨.identifier name, rfl, rfl⟩

theorem bare (h : Derives .primary ts e) : Derives .unary ts e := by
  obtain ⟨p, rfl, htree⟩ := h
  exact ⟨.bare p, rfl, htree⟩

theorem not (h : Derives .unary ts e) (span : Span) :
    Derives .unary (.bang :: ts) (.not span e) := by
  obtain ⟨p, rfl, htree⟩ := h
  exact ⟨.not p, rfl, congrArg (Expr.not ()) htree⟩

theorem parens (h : Derives (.chain .or) ts e) :
    Derives .primary (.openParen :: ts ++ [.closeParen]) e := by
  obtain ⟨p, rfl, htree⟩ := h
  exact ⟨.parens p, rfl, htree⟩

/-- An operand is a chain without operators. -/
theorem single (h : Derives l.operand ts e) : Derives (.chain l) ts e := by
  obtain ⟨p, rfl, htree⟩ := h
  exact ⟨.chain p .nil, List.append_nil _, htree⟩

/-- A chain goes on with an operator of its level. -/
theorem binary {op : Operator} (h : Derives (.chain l) ts e) (hop : op.level = l)
    (h' : Derives l.operand us e') :
    Derives (.chain l) (ts ++ .operator op :: us) (Parser.binary op e e') := by
  obtain ⟨p, rfl, htree⟩ := h
  obtain ⟨q, rfl, htree'⟩ := h'
  cases p with
  | chain first rest =>
    -- the operator goes to the end of the repetition, where folding makes it the root
    refine ⟨.chain first (rest.concat op hop q), ?_, ?_⟩
    · rw [Phrase.yield, Phrase.yield, Tail.yield_concat, List.append_assoc]
    · rw [Phrase.tree, Tail.fold_concat, htree']
      exact congrArg (fun left => Expr.binary () op left e'.erase) htree

/-- Negation signs in front of an operand. -/
theorem negate (h : Derives .primary ts e) (bangs : List Nat) (stop : Nat) :
    Derives .unary (List.replicate bangs.length .bang ++ ts) (Parser.negate bangs stop e) := by
  -- the span of the nodes is the same for all signs and does not matter
  have key : ∀ (span : Span) (bangs : List Nat) {us : List Token} {e : Expr Span},
      Derives .unary us e → Derives .unary (List.replicate bangs.length .bang ++ us)
        (bangs.foldl (fun e _ => .not span e) e) := by
    intro span bangs
    induction bangs with
    | nil => exact fun h => h
    | cons b bangs ih =>
      intro us e h
      -- signs are applied from the inside, so this one stands next to the operand
      have hnext := ih (h.not span)
      rwa [List.append_cons, ← List.replicate_succ'] at hnext
  exact key _ bangs h.bare

end Derives

/-! ### Folding a chain -/

/-- What follows the first operand of a chain: operators, each with an operand of the layer. -/
inductive Follows (n : Layer) : List Token → List (Operator × Expr Span) → Prop where
  | nil : Follows n [] []
  | cons {op : Operator} {us ts : List Token} {e : Expr Span} {es : List (Operator × Expr Span)}
      (h : Derives n us e) (later : Follows n ts es) :
      Follows n (.operator op :: us ++ ts) ((op, e) :: es)

/-- `first` and the operands in `rest`, with the operators between them, are read from `ts`. -/
def ReadAs (n : Layer) (ts : List Token) (chain : Expr Span × List (Operator × Expr Span)) : Prop :=
  ∃ us vs, ts = us ++ vs ∧ Derives n us chain.1 ∧ Follows n vs chain.2

/-- **Folding a level.** If a chain of the level comes first, and operands of the level follow,
folding gives chains of the level, read from the same tokens. -/
theorem foldLevel_derives {l : Level} {us vs : List Token} {first : Expr Span}
    {rest : List (Operator × Expr Span)} (h : Derives (.chain l) us first)
    (hrest : Follows l.operand vs rest) :
    ReadAs (.chain l) (us ++ vs) (foldLevel l first rest) := by
  -- the first operand grows with every operator of the level, so it is arbitrary
  induction hrest generalizing us first with
  | nil => exact ⟨us, [], rfl, h, .nil⟩
  | @cons op ws ts e es he later ih =>
    unfold foldLevel
    split
    · -- the operator joins the first operand with the next one
      next hop =>
      have hjoined := ih (h.binary hop he)
      rwa [List.append_assoc, List.cons_append] at hjoined
    · -- the next operand begins a chain of its own
      obtain ⟨us', vs', hcut, hnext, hlater⟩ := ih he.single
      refine ⟨us, .operator op :: us' ++ vs', ?_, h, .cons hnext hlater⟩
      rw [List.cons_append, List.cons_append, hcut]

/-- Folding a level leaves operators of other levels only, and no new ones. -/
theorem level_of_mem_foldLevel {l : Level} {first : Expr Span}
    {rest : List (Operator × Expr Span)} :
    ∀ o ∈ (foldLevel l first rest).2, o.1.level ≠ l ∧ o.1 ∈ rest.map Prod.fst := by
  -- an operator is left standing only if it is of another level
  induction rest generalizing first with
  | nil => exact nofun
  | cons o rest ih =>
    obtain ⟨op, e⟩ := o
    unfold foldLevel
    split
    · intro o ho
      obtain ⟨hlevel, hmem⟩ := ih o ho
      exact ⟨hlevel, List.mem_cons_of_mem _ hmem⟩
    · next hop =>
      refine List.forall_mem_cons.mpr ⟨⟨hop, List.mem_cons_self⟩, fun o ho => ?_⟩
      obtain ⟨hlevel, hmem⟩ := ih o ho
      exact ⟨hlevel, List.mem_cons_of_mem _ hmem⟩

/-- Folding several levels leaves operators of other levels only, and no new ones. -/
theorem level_of_mem_foldLevels (ls : List Level)
    (chain : Expr Span × List (Operator × Expr Span)) :
    ∀ o ∈ (ls.foldl (fun chain l => foldLevel l chain.1 chain.2) chain).2,
      o.1.level ∉ ls ∧ o.1 ∈ chain.2.map Prod.fst := by
  -- one level after the other; no level brings an operator back
  induction ls generalizing chain with
  | nil => exact fun o ho => ⟨List.not_mem_nil, List.mem_map_of_mem ho⟩
  | cons l ls ih =>
    intro o ho
    obtain ⟨hlater, hmem⟩ := ih (foldLevel l chain.1 chain.2) o ho
    -- what is left by the later levels was left by the first one
    obtain ⟨o', ho', heq⟩ := List.mem_map.mp hmem
    obtain ⟨hfirst, hmem'⟩ := level_of_mem_foldLevel o' ho'
    rw [heq] at hfirst hmem'
    exact ⟨List.not_mem_cons_of_ne_of_not_mem hfirst hlater, hmem'⟩

/-- **Folding all levels** leaves no operator: it would be of none of them. -/
theorem foldLevels_rest (first : Expr Span) (rest : List (Operator × Expr Span)) :
    (levels.foldl (fun chain l => foldLevel l chain.1 chain.2) (first, rest)).2 = [] := by
  refine List.eq_nil_iff_forall_not_mem.mpr fun o ho => ?_
  have hlevel := (level_of_mem_foldLevels levels (first, rest) o ho).1
  have hall : ∀ l, l ∈ levels := by
    intro l
    cases l <;> decide
  exact hlevel (hall o.1.level)

/-- Folding a level of a chain gives a chain of the next looser layer. -/
theorem ReadAs.foldLevel {l : Level} {ts : List Token}
    {chain : Expr Span × List (Operator × Expr Span)}
    (h : ReadAs l.operand ts chain) : ReadAs (.chain l) ts (foldLevel l chain.1 chain.2) := by
  obtain ⟨us, vs, rfl, hfirst, hrest⟩ := h
  exact foldLevel_derives hfirst.single hrest

/-- **The tree of a chain** of signed operands is that of a derivation. -/
theorem ReadAs.foldChain {ts : List Token} {first : Expr Span} {rest : List (Operator × Expr Span)}
    (h : ReadAs .unary ts (first, rest)) : Derives (.chain .or) ts (foldChain first rest) := by
  -- from the tightest level to the loosest
  set relational := Parser.foldLevel .relational first rest with hrelational
  set equality := Parser.foldLevel .equality relational.1 relational.2 with hequality
  set conjunction := Parser.foldLevel .and equality.1 equality.2 with hconjunction
  set disjunction := Parser.foldLevel .or conjunction.1 conjunction.2 with hdisjunction
  have h1 : ReadAs (.chain .relational) ts relational := ReadAs.foldLevel (l := .relational) h
  have h2 : ReadAs (.chain .equality) ts equality := ReadAs.foldLevel (l := .equality) h1
  have h3 : ReadAs (.chain .and) ts conjunction := ReadAs.foldLevel (l := .and) h2
  obtain ⟨us, vs, rfl, hfirst, hrest⟩ : ReadAs (.chain .or) ts disjunction :=
    ReadAs.foldLevel (l := .or) h3
  -- every operator is of one of the four levels, so one operand is left
  have hnone : disjunction.2 = [] := foldLevels_rest first rest
  rw [hnone] at hrest
  cases hrest
  rw [List.append_nil]
  exact hfirst

/-! ### What a state holds -/

/-- The tokens of the operands and operators of a chain. -/
inductive Chain.Holds : Chain → List Token → Prop where
  | nil : Chain.Holds [] []
  | cons {chain : Chain} {e : Expr Span} {op : Operator} {ts us : List Token}
      (earlier : Chain.Holds chain ts) (h : Derives .unary us e) :
      Chain.Holds ((e, op) :: chain) (ts ++ us ++ [.operator op])

/-- The tokens of a group in which an operand is due. -/
def Group.Holds (group : Group) (ts : List Token) : Prop :=
  ∃ us, group.chain.Holds us ∧ ts = us ++ List.replicate group.bangs.length .bang

/-- The tokens of the groups around a group, each with its opening parenthesis. -/
inductive OuterHolds : List Group → List Token → Prop where
  | nil : OuterHolds [] []
  | cons {group : Group} {outer : List Group} {ts us : List Token} (earlier : OuterHolds outer ts)
      (h : group.Holds us) : OuterHolds (group :: outer) (ts ++ us ++ [.openParen])

/-- **The tokens of a state**: all that has been read up to it. -/
def State.Holds : State → List Token → Prop
  | .due outer group, ts => ∃ us vs, ts = us ++ vs ∧ OuterHolds outer us ∧ group.Holds vs
  | .read outer chain e, ts => ∃ us vs ws, ts = us ++ vs ++ ws ∧ OuterHolds outer us ∧
      chain.Holds vs ∧ Derives .unary ws e

/-- A chain read from the left. -/
theorem Chain.Holds.unroll {chain : Chain} {ts : List Token} (h : chain.Holds ts) {last : Expr Span}
    {rest : List (Operator × Expr Span)} {us vs : List Token} (hlast : Derives .unary us last)
    (hrest : Follows .unary vs rest) : ReadAs .unary (ts ++ us ++ vs) (unroll last rest chain) := by
  -- from the last operand to the first; what has been unrolled grows
  induction h generalizing last rest us vs with
  | nil => exact ⟨us, vs, rfl, hlast, hrest⟩
  | @cons chain e op ts ws earlier he ih =>
    -- the last operand joins what follows, with the operator before it
    have hstep := ih he (@Follows.cons _ op _ _ _ _ hlast hrest)
    show ReadAs .unary _ (Chain.unroll e ((op, last) :: rest) chain)
    simpa only [List.append_assoc, List.cons_append, List.nil_append] using hstep

/-- A chain that ends in an operand closes to a tree of the loosest level. -/
theorem Chain.Holds.close {chain : Chain} {ts us : List Token} {e : Expr Span} (h : chain.Holds ts)
    (he : Derives .unary us e) : Derives (.chain .or) (ts ++ us) (chain.close e) := by
  have hread := h.unroll he .nil
  rw [List.append_nil] at hread
  exact hread.foldChain

/-- An operand that has been read where it was due. -/
theorem State.Holds.operand {outer : List Group} {group : Group} {ts us : List Token}
    {e : Expr Span}
    (h : (State.due outer group).Holds ts) (he : Derives .primary us e) (stop : Nat) :
    (State.read outer group.chain (negate group.bangs stop e)).Holds (ts ++ us) := by
  -- the signs of the group go to the operand, and the chain stays as it is
  obtain ⟨vs, _, rfl, houter, ws, hchain, rfl⟩ := h
  refine ⟨vs, ws, _, ?_, houter, hchain, he.negate group.bangs stop⟩
  simp only [List.append_assoc]

/-- **One token.** A state that holds what has been read goes over to one that holds the token
too. -/
theorem step_holds {state state' : State} {lexeme : Spanned Token} {ts : List Token}
    (h : state.Holds ts) (hstep : step state lexeme = .ok state') :
    state'.Holds (ts ++ [lexeme.value]) := by
  obtain ⟨t, span⟩ := lexeme
  -- what each token does to the state is what it adds to the tokens; the others are refused
  cases state with
  | due outer group =>
    cases t with
    | bang =>
      -- one sign more stands before the operand that is due
      obtain rfl := Except.ok.inj hstep
      obtain ⟨us, vs, rfl, houter, ws, hchain, rfl⟩ := h
      refine ⟨us, _, ?_, houter, ws, hchain, rfl⟩
      rw [List.length_cons, List.replicate_succ']
      simp only [List.append_assoc]
    | openParen =>
      -- the group goes to those around the new one, which is empty
      obtain rfl := Except.ok.inj hstep
      obtain ⟨us, vs, rfl, houter, hgroup⟩ := h
      exact ⟨_, [], (List.append_nil _).symm, .cons houter hgroup, [], .nil, rfl⟩
    | literal v =>
      obtain rfl := Except.ok.inj hstep
      exact h.operand (.literal span v) span.stop
    | identifier name =>
      obtain rfl := Except.ok.inj hstep
      exact h.operand (.identifier span name) span.stop
    | closeParen => cases hstep
    | operator op => cases op <;> cases hstep
  | read outer chain e =>
    obtain ⟨us, vs, ws, rfl, houter, hchain, he⟩ := h
    cases t with
    | operator op =>
      -- the chain takes the operand with the operator
      have hstate : state' = .due outer ⟨(e, op) :: chain, []⟩ := by
        cases outer <;> exact (Except.ok.inj hstep).symm
      subst hstate
      refine ⟨us, vs ++ ws ++ [.operator op], ?_, houter, _, .cons hchain he,
        (List.append_nil _).symm⟩
      simp only [List.append_assoc]
    | closeParen =>
      cases outer with
      | nil => cases hstep
      | cons group outer =>
        obtain rfl := Except.ok.inj hstep
        -- the chain of the group is closed, and its parentheses make it an operand
        cases houter with
        | cons houter hgroup =>
          have hdue : (State.due outer group).Holds _ := ⟨_, _, rfl, houter, hgroup⟩
          have hread := hdue.operand (hchain.close he).parens span.stop
          simpa only [List.append_assoc, List.cons_append, List.nil_append] using hread
    | bang | openParen | literal | identifier => cases outer <;> cases hstep

/-- **All tokens.** -/
theorem foldlM_holds {lexemes : List (Spanned Token)} {state state' : State} {ts : List Token}
    (h : state.Holds ts) (hrun : lexemes.foldlM step state = .ok state') :
    state'.Holds (ts ++ lexemes.map (·.value)) := by
  -- along the tokens, with `step_holds` at each of them
  induction lexemes generalizing state ts with
  | nil =>
    obtain rfl := Except.ok.inj hrun
    rwa [List.map_nil, List.append_nil]
  | cons lexeme lexemes ih =>
    rw [List.foldlM_cons] at hrun
    cases hstep : step state lexeme with
    | error failure => rw [hstep] at hrun; cases hrun
    | ok next =>
      rw [hstep] at hrun
      have hnext := ih (step_holds h hstep) hrun
      rwa [List.append_assoc, List.singleton_append, ← List.map_cons] at hnext

/-- **Soundness.** The tree of a sequence of tokens is that of a derivation of it. -/
theorem derives_of_run {lexed : Lexed} {e : Expr Span} (h : run lexed = .ok e) :
    lexed.complete = true ∧ Derives (.chain .or) (lexed.tokens.map (·.value)) e := by
  -- nothing has been read at first, and the run keeps up with the tokens
  have hinitial : (State.due [] .fresh).Holds [] := ⟨[], [], rfl, .nil, [], .nil, rfl⟩
  unfold run at h
  cases hrun : lexed.tokens.foldlM step (.due [] .fresh) with
  | error failure => rw [hrun] at h; cases h
  | ok state =>
    rw [hrun] at h
    have hstate := foldlM_holds hinitial hrun
    change finish lexed state = .ok e at h
    unfold finish at h
    split at h
    · -- a run ends well only behind an operand outside all groups
      next chain operand hcomplete =>
      obtain rfl := Except.ok.inj h
      obtain ⟨us, vs, ws, hts, houter, hchain, he⟩ := hstate
      cases houter
      rw [List.nil_append] at hts
      rw [hts]
      exact ⟨hcomplete, hchain.close he⟩
    · cases h

/-! ### Tokens that are accepted -/

/-- From every state of the one sort, the tokens lead to a state of the other, wherever they
stand. -/
def Leads (before after : State → Prop) (ts : List Token) : Prop :=
  ∀ lexemes : List (Spanned Token), lexemes.map (·.value) = ts → ∀ state, before state →
    ∃ state', lexemes.foldlM step state = .ok state' ∧ after state'

/-- An operand is due inside the given groups. -/
def IsDue (outer : List Group) (state : State) : Prop :=
  ∃ group, state = .due outer group

/-- An operand has been read inside the given groups. -/
def IsRead (outer : List Group) (state : State) : Prop :=
  ∃ chain e, state = .read outer chain e

namespace Leads

variable {first second third : State → Prop} {ts us : List Token}

theorem nil : Leads first first [] := by
  intro lexemes hlexemes state hstate
  rw [List.map_eq_nil_iff.mp hlexemes]
  exact ⟨state, rfl, hstate⟩

theorem append (h : Leads first second ts) (h' : Leads second third us) :
    Leads first third (ts ++ us) := by
  intro lexemes hlexemes state hstate
  -- the spans are cut where the tokens are, and the two runs are put together
  obtain ⟨before, after, rfl, hbefore, hafter⟩ := List.map_eq_append_iff.mp hlexemes
  obtain ⟨middle, hmiddle, hsecond⟩ := h before hbefore state hstate
  obtain ⟨last, hlast, hthird⟩ := h' after hafter middle hsecond
  refine ⟨last, ?_, hthird⟩
  rw [List.foldlM_append, hmiddle]
  exact hlast

/-- One token, wherever it stands. -/
theorem token {t : Token} (h : ∀ span state, first state →
    ∃ state', step state ⟨t, span⟩ = .ok state' ∧ second state') : Leads first second [t] := by
  intro lexemes hlexemes state hstate
  obtain ⟨⟨t', span⟩, rfl, rfl⟩ := List.map_eq_singleton_iff.mp hlexemes
  obtain ⟨next, hnext, hsecond⟩ := h span state hstate
  refine ⟨next, ?_, hsecond⟩
  rw [List.foldlM_cons, hnext]
  rfl

end Leads

end Parser

open CondRegions.Parser

mutual

/-- **The tokens of a derivation are accepted** where an operand is due. -/
theorem Phrase.accepted {n : Layer} : (p : Phrase n) → (outer : List Group) →
    Leads (IsDue outer) (IsRead outer) p.yield
  | .chain first rest, outer => (first.accepted outer).append (rest.accepted outer)
  | .not operand, outer => by
    -- a sign leaves an operand due, in the same groups
    have hbang : Leads (IsDue outer) (IsDue outer) [.bang] := by
      refine .token ?_
      rintro span _ ⟨group, rfl⟩
      exact ⟨_, rfl, _, rfl⟩
    exact hbang.append (operand.accepted outer)
  | .bare operand, outer => operand.accepted outer
  | .parens inner, outer => by
    intro lexemes hlexemes state hstate
    obtain ⟨group, rfl⟩ := hstate
    -- the group that is interrupted is put around the inner one and taken up again behind it
    have hopen : Leads (· = State.due outer group) (IsDue (group :: outer)) [.openParen] := by
      refine .token ?_
      rintro span _ rfl
      exact ⟨_, rfl, _, rfl⟩
    have hclose : Leads (IsRead (group :: outer)) (IsRead outer) [.closeParen] := by
      refine .token ?_
      rintro span _ ⟨chain, e, rfl⟩
      exact ⟨_, rfl, _, _, rfl⟩
    exact (hopen.append (inner.accepted (group :: outer))).append hclose lexemes hlexemes _ rfl
  | .literal v, outer => by
    refine .token ?_
    rintro span _ ⟨group, rfl⟩
    exact ⟨_, rfl, _, _, rfl⟩
  | .identifier name, outer => by
    refine .token ?_
    rintro span _ ⟨group, rfl⟩
    exact ⟨_, rfl, _, _, rfl⟩

theorem Tail.accepted {l : Level} : (t : Tail l) → (outer : List Group) →
    Leads (IsRead outer) (IsRead outer) t.yield
  | .nil, _ => .nil
  | .cons op _ next rest, outer => by
    -- behind the operator an operand is due again, and the repetition goes on behind it
    have hop : Leads (IsRead outer) (IsDue outer) [.operator op] := by
      refine .token ?_
      rintro span _ ⟨chain, e, rfl⟩
      cases outer <;> exact ⟨_, rfl, _, rfl⟩
    exact hop.append ((next.accepted outer).append (rest.accepted outer))

end

/-- **Completeness.** Tokens that have a derivation have a tree. -/
theorem Parser.exists_run {lexed : Lexed} (hcomplete : lexed.complete = true) {p : Sentence}
    (h : lexed.tokens.map (·.value) = p.yield) : ∃ e, run lexed = .ok e := by
  -- no group is open at first, so none is open at the end
  obtain ⟨_, hrun, chain, e, rfl⟩ := p.accepted [] lexed.tokens h (.due [] .fresh) ⟨_, rfl⟩
  refine ⟨chain.close e, ?_⟩
  unfold run
  rw [hrun]
  show finish lexed (.read [] chain e) = .ok (chain.close e)
  unfold finish
  rw [hcomplete]

namespace Condition

/-! ### Parsing a text -/

theorem parse_eq_ok_iff {text : String} {e : Expr Span} :
    parse text = .ok e ↔
      ¬ (∀ c ∈ text.toList, isWhiteSpace c = true) ∧
        Parser.run (Lexed.ofText text.toList) = .ok e := by
  rw [← List.all_eq_true]
  unfold parse
  dsimp only
  split
  · next hblank => simp [hblank]
  · next hblank =>
    rw [and_iff_right hblank]
    cases Parser.run (Lexed.ofText text.toList) with
    | ok e' => simp only [Except.ok.injEq]
    | error failure => simp

theorem parse_eq_error_iff {text : String} {e : SyntaxError} :
    parse text = .error e ↔
      (∀ c ∈ text.toList, isWhiteSpace c = true) ∧ e = ⟨.empty, ⟨0, Text.byteLength text.toList⟩⟩ ∨
      (¬ ∀ c ∈ text.toList, isWhiteSpace c = true) ∧ ∃ failure,
        Parser.run (Lexed.ofText text.toList) = .error failure ∧
          e = ⟨Parser.reasonFor text.toList failure, ⟨failure.position, failure.position⟩⟩ := by
  unfold parse
  dsimp only
  -- a blank text is refused before its tokens are read
  by_cases hblank : ∀ c ∈ text.toList, isWhiteSpace c = true
  · rw [if_pos (List.all_eq_true.mpr hblank)]
    constructor
    · intro h
      exact .inl ⟨hblank, (Except.error.inj h).symm⟩
    · rintro (⟨-, rfl⟩ | ⟨hvisible, -⟩)
      · rfl
      · exact absurd hblank hvisible
  · rw [if_neg (fun hall => hblank (List.all_eq_true.mp hall))]
    constructor
    · intro h
      cases hrun : Parser.run (Lexed.ofText text.toList) with
      | ok tree => rw [hrun] at h; cases h
      | error failure =>
        rw [hrun] at h
        exact .inr ⟨hblank, failure, rfl, (Except.error.inj h).symm⟩
    · rintro (⟨hall, -⟩ | ⟨-, failure, hrun, rfl⟩)
      · exact absurd hall hblank
      · rw [hrun]

/-- What is derived is not blank. -/
theorem not_blank_of_lexes {cs : List Char} {p : Sentence} (h : Lexes cs p.yield) :
    ¬ ∀ c ∈ cs, isWhiteSpace c = true := by
  intro hblank
  -- a derivation has a token, and a token has a visible character
  generalize hts : p.yield = ts at h
  cases h with
  | done => exact p.yield_ne_nil hts
  | @token blanks ds rest t ts _ hlexeme _ =>
    obtain ⟨c, hc, hspace⟩ := hlexeme.spells.exists_not_isWhiteSpace
    have hmem : c ∈ blanks ++ ds ++ rest := List.mem_append_left _ (List.mem_append_right _ hc)
    rw [hblank c hmem] at hspace
    cases hspace

theorem exists_lexes_of_parse {text : String} {e : Expr Span} (h : parse text = .ok e) :
    ∃ p : Sentence, Lexes text.toList p.yield ∧ p.tree = e.erase := by
  obtain ⟨hcomplete, p, hyield, htree⟩ := derives_of_run (parse_eq_ok_iff.mp h).2
  exact ⟨p, Lexed.lexes_iff.mpr ⟨hcomplete, hyield.symm⟩, htree⟩

theorem exists_parse_of_lexes {text : String} {p : Sentence} (h : Lexes text.toList p.yield) :
    ∃ e, parse text = .ok e := by
  obtain ⟨hcomplete, htokens⟩ := Lexed.lexes_iff.mp h
  obtain ⟨e, hrun⟩ := Parser.exists_run hcomplete htokens
  exact ⟨e, parse_eq_ok_iff.mpr ⟨not_blank_of_lexes h, hrun⟩⟩

/-- A text has one token sequence at most, and a token sequence one derivation. -/
theorem eq_of_lexes {cs : List Char} {p q : Sentence} (hp : Lexes cs p.yield)
    (hq : Lexes cs q.yield) : p = q := by
  refine Phrase.eq_of_yield ?_
  exact (Lexed.lexes_iff.mp hp).2.symm.trans (Lexed.lexes_iff.mp hq).2

/-- **Parsing is deriving.** Blank texts have no tree. A text has one exactly if it is made of
tokens that the grammar derives; the derivation is unique then, and the tree is, up to spans, the
expression of the derivation. No identifier in it has the name of a literal. -/
theorem parse_grammar (text : String) :
    ((∀ c ∈ text.toList, isWhiteSpace c = true) → ∃ error, parse text = .error error) ∧
    ((∃ e, parse text = .ok e) ↔ ∃ p : Sentence, Lexes text.toList p.yield) ∧
    ∀ e, parse text = .ok e →
      (∃! p : Sentence, Lexes text.toList p.yield) ∧
      (∀ p : Sentence, Lexes text.toList p.yield → p.tree = e.erase) ∧
      ∀ name ∈ e.names, name ∉ Token.keywords.map Prod.fst := by
  refine ⟨?_, ⟨?_, ?_⟩, ?_⟩
  · intro hblank
    cases h : parse text with
    | ok e => exact absurd hblank (parse_eq_ok_iff.mp h).1
    | error error => exact ⟨error, rfl⟩
  · rintro ⟨e, h⟩
    obtain ⟨p, hlexes, -⟩ := exists_lexes_of_parse h
    exact ⟨p, hlexes⟩
  · rintro ⟨p, h⟩
    exact exists_parse_of_lexes h
  · intro e h
    obtain ⟨p, hlexes, htree⟩ := exists_lexes_of_parse h
    -- all derivations of the text are the one that the parser found
    refine ⟨⟨p, hlexes, fun q hq => eq_of_lexes hq hlexes⟩, ?_, ?_⟩
    · intro q hq
      rw [eq_of_lexes hq hlexes]
      exact htree
    · intro name hname
      -- a name of the tree is a token of the text
      rw [← Expr.names_erase, ← htree] at hname
      exact hlexes.not_mem_keywords (p.mem_yield_of_mem_names hname)

end Condition

end CondRegions
