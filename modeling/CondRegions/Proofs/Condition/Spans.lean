import CondRegions.Proofs.Condition.Context
import CondRegions.Proofs.Condition.SpanTree
import CondRegions.Proofs.Condition.Viable

/-!
# The spans of a tree

The tree that the parser builds fits the text. What is proved along a run is where things stand:
each group starts at the place behind its parenthesis, its operands and operators come one after the
other (`Parser.Chain.Runs`), and the negation signs before the operand that is due come last
(`Parser.Signs`).

*Folding.* An operator joins two operands by what stands between the end of the one and the start of
the other. A binary node starts where its left operand starts and ends where its right one ends, so
folding a level changes nothing about what stands between neighbours (`Parser.foldLevel_linked`).
When a group closes, its tree starts where its first operand starts and ends where its last one ends
(`Parser.Chain.Runs.close`).

*Steps.* Where a state stands is taken along by one token (`Parser.State.StandsAt.step`), and so by
all tokens of the text (`Parser.fits_of_runFrom`).

`Condition.parse_spans` says what this means for each node.
-/

namespace CondRegions

namespace Parser

open Text

variable {text : List Char}

/-! ### Chains -/

/-- Operands from the left, with the operators between them. The last operand ends at `stop`. -/
inductive Linked (text : List Char) (stop : Nat) :
    Expr Span → List (Operator × Expr Span) → Prop where
  | last {e : Expr Span} (h : e.Fits text) (hstop : e.note.stop = stop) : Linked text stop e []
  | next {op : Operator} {e e' : Expr Span} {rest : List (Operator × Expr Span)} {cs : List Char}
      (h : e.Fits text) (hbetween : Between text e.note.stop e'.note.start cs)
      (hjoins : op.Joins cs)
      (later : Linked text stop e' rest) : Linked text stop e ((op, e') :: rest)

namespace Linked

variable {stop : Nat} {op : Operator} {e e' : Expr Span} {rest : List (Operator × Expr Span)}

theorem first (h : Linked text stop e rest) : e.Fits text := by
  cases h with
  | last h => exact h
  | next h => exact h

/-- The first two operands joined to one. -/
theorem join (h : Linked text stop e ((op, e') :: rest)) :
    Linked text stop (binary op e e') rest := by
  cases h with
  | next he hbetween hjoins later =>
    have hfits := he.binary later.first hbetween hjoins
    -- the new operand ends where the second one ended
    cases later with
    | last _ hstop => exact .last hfits hstop
    | next _ hbetween' hjoins' later => exact .next hfits hbetween' hjoins' later

end Linked

/-- **Folding a level** keeps what stands between neighbours, and where the first operand starts. -/
theorem foldLevel_linked {stop : Nat} {first : Expr Span} {rest : List (Operator × Expr Span)}
    (h : Linked text stop first rest) (l : Level) :
    Linked text stop (foldLevel l first rest).1 (foldLevel l first rest).2 ∧
      (foldLevel l first rest).1.note.start = first.note.start := by
  -- the first operand takes in the next one, or the rest is folded behind it
  induction rest generalizing first with
  | nil => exact ⟨h, rfl⟩
  | cons operand rest ih =>
    obtain ⟨op, e⟩ := operand
    unfold foldLevel
    split
    · exact ih h.join
    · cases h with
      | next hfirst hbetween hjoins later =>
        obtain ⟨hlinked, hstart⟩ := ih later
        exact ⟨.next hfirst (hstart ▸ hbetween) hjoins hlinked, rfl⟩

/-- Folding several levels keeps them too. -/
theorem foldLevels_linked {stop : Nat} {chain : Expr Span × List (Operator × Expr Span)}
    (h : Linked text stop chain.1 chain.2) (ls : List Level) :
    let folded := ls.foldl (fun chain l => foldLevel l chain.1 chain.2) chain
    Linked text stop folded.1 folded.2 ∧ folded.1.note.start = chain.1.note.start := by
  -- level by level; the start of the chain never moves
  induction ls generalizing chain with
  | nil => exact ⟨h, rfl⟩
  | cons l ls ih =>
    obtain ⟨hlinked, hstart⟩ := foldLevel_linked h l
    obtain ⟨hlinked', hstart'⟩ := ih hlinked
    exact ⟨hlinked', hstart'.trans hstart⟩

/-- **The tree of a chain** reaches from its first operand to its last one. -/
theorem foldChain_fits {stop : Nat} {first : Expr Span} {rest : List (Operator × Expr Span)}
    (h : Linked text stop first rest) :
    (foldChain first rest).Fits text ∧ (foldChain first rest).note.start = first.note.start ∧
      (foldChain first rest).note.stop = stop := by
  obtain ⟨hlinked, hstart⟩ := @foldLevels_linked text stop (first, rest) h levels
  -- no operator is left, so the first operand is the last one too
  rw [foldLevels_rest first rest] at hlinked
  cases hlinked with
  | last hfits hstop => exact ⟨hfits, hstart, hstop⟩

/-- **The place of a chain.** It starts at `a`, behind the parenthesis of its group, and its last
operator ends at `b`. An opening gap is before each operand, and a closing one before each
operator. -/
inductive Chain.Runs (text : List Char) (a : Nat) : Chain → Nat → Prop where
  | nil : Chain.Runs text a [] a
  | cons {chain : Chain} {e : Expr Span} {op : Operator} {b c : Nat} {closing : List Char}
      (earlier : Chain.Runs text a chain b) (hopening : Gap text '(' b e.note.start)
      (h : e.Fits text)
      (hclosing : IsLayout ')' closing)
      (hop : Between text e.note.stop c (closing ++ op.symbol.toList)) :
      Chain.Runs text a ((e, op) :: chain) c

namespace Chain.Runs

variable {chain : Chain} {a b : Nat} {last : Expr Span}

/-- A chain read from the left. -/
theorem unroll (h : chain.Runs text a b) {rest : List (Operator × Expr Span)} {stop : Nat}
    (hopening : Gap text '(' b last.note.start) (hlast : Linked text stop last rest) :
    Linked text stop (Chain.unroll last rest chain).1 (Chain.unroll last rest chain).2 ∧
      Gap text '(' a (Chain.unroll last rest chain).1.note.start := by
  -- from the last operand to the first, as the chain is kept
  induction h generalizing last rest with
  | nil => exact ⟨hlast, hopening⟩
  | cons earlier hopening' he hclosing hop ih =>
    -- the operator of the chain joins its operand with what comes next
    obtain ⟨opening, hbetween, hlayout⟩ := hopening
    exact ih hopening' (.next he (hop.append hbetween) ⟨_, opening, rfl, hclosing, hlayout⟩ hlast)

/-- **Closing a chain.** The tree has an opening gap before it, and ends where the last operand
ends. -/
theorem close (h : chain.Runs text a b) (hopening : Gap text '(' b last.note.start)
    (hlast : last.Fits text) :
    (chain.close last).Fits text ∧ Gap text '(' a (chain.close last).note.start ∧
      (chain.close last).note.stop = last.note.stop := by
  obtain ⟨hlinked, hgap⟩ := h.unroll hopening (.last hlast rfl)
  obtain ⟨hfits, hstart, hstop⟩ := foldChain_fits hlinked
  refine ⟨hfits, ?_, hstop⟩
  show Gap text '(' a (foldChain _ _).note.start
  rwa [hstart]

end Chain.Runs

/-! ### Negation signs -/

/-- **The place of negation signs**, listed last first. They start behind `a`, after blanks, and end
at `b`. -/
inductive Signs (text : List Char) (a : Nat) : List Nat → Nat → Prop where
  | nil : Signs text a [] a
  | run {bangs : List Nat} {first b : Nat} {blanks signs : List Char}
      (hfirst : bangs.getLast? = some first)
      (hblanks : IsBlanks blanks) (hbefore : Between text a first blanks)
      (hsigns : IsSigns bangs.length signs) (hbetween : Between text first b signs) :
      Signs text a bangs b

/-- One more sign. -/
theorem Signs.concat {a b bang stop : Nat} {bangs : List Nat} {blanks : List Char}
    (h : Signs text a bangs b) (hblanks : IsBlanks blanks) (hbefore : Between text b bang blanks)
    (hbang : Between text bang stop ['!']) : Signs text a (bang :: bangs) stop := by
  -- the first sign opens a run, and a later one goes on with it
  cases h with
  | nil => exact .run rfl hblanks hbefore .one hbang
  | run hfirst hblanks' hbefore' hsigns hbetween =>
    refine .run ?_ hblanks' hbefore' (hsigns.concat hblanks)
      ((hbetween.append hbefore).append hbang)
    rw [List.getLast?_cons, hfirst]
    rfl

theorem negate_eq_signed {bangs : List Nat} {first : Nat} (h : bangs.getLast? = some first)
    (stop : Nat) (e : Expr Span) : negate bangs stop e = e.signed ⟨first, stop⟩ bangs.length := by
  have hfirst : bangs.getLastD stop = first := by
    rw [List.getLastD_eq_getLast?, h]
    rfl
  -- every sign adds a node with the span of the run
  have hfold : ∀ (span : Span) (bangs : List Nat) (e : Expr Span),
      bangs.foldl (fun e _ => .not span e) e = e.signed span bangs.length := by
    intro span bangs
    induction bangs with
    | nil => exact fun e => rfl
    | cons bang bangs ih =>
      exact fun e => (ih (.not span e)).trans (Expr.signed_not span e bangs.length)
  unfold negate
  rw [hfirst]
  exact hfold _ bangs e

/-- **An operand behind signs.** It has an opening gap before it, and a closing one behind it. -/
theorem Signs.negate {a b stop : Nat} {bangs : List Nat} {e : Expr Span} {opening : List Char}
    (h : Signs text a bangs b) (he : e.Fits text) (hopening : Between text b e.note.start opening)
    (hlayout : IsLayout '(' opening) (htoken : e.token? = none → '(' ∈ opening)
    (hclosing : Gap text ')' e.note.stop stop) :
    (negate bangs stop e).Fits text ∧ Gap text '(' a (negate bangs stop e).note.start ∧
      Gap text ')' (negate bangs stop e).note.stop stop := by
  -- without signs the operand stays as it is; with signs it gets the span of the run
  cases h with
  | nil => exact ⟨he, ⟨opening, hopening, hlayout⟩, hclosing⟩
  | run hfirst hblanks hbefore hsigns hbetween =>
    rw [negate_eq_signed hfirst, Expr.note_signed hsigns.pos]
    refine ⟨he.signed ⟨⟨_, opening, b, hbetween, hsigns, hopening, hlayout, htoken⟩, hclosing⟩, ?_,
      ?_⟩
    · exact ⟨_, hbefore, hblanks.isLayout '('⟩
    · obtain ⟨closing, hclosing, -⟩ := hclosing
      exact hclosing.isBoundary_stop.gap ')'

/-! ### States -/

/-- **The places of the groups around a group**, which starts at `a` itself. -/
inductive OuterStandsAt (text : List Char) : List Group → Nat → Prop where
  | nil : OuterStandsAt text [] 0
  | cons {group : Group} {outer : List Group} {a b c d : Nat} {blanks : List Char}
      (earlier : OuterStandsAt text outer a) (hchain : group.chain.Runs text a b)
      (hsigns : Signs text b group.bangs c) (hblanks : IsBlanks blanks)
      (hparen : Between text c d (blanks ++ ['('])) : OuterStandsAt text (group :: outer) d

/-- **The place of a state**, up to which the text has been read. -/
def State.StandsAt (text : List Char) : State → Nat → Prop
  | .due outer group, p => ∃ a b, OuterStandsAt text outer a ∧ group.chain.Runs text a b ∧
      Signs text b group.bangs p
  | .read outer chain e, p =>
    ∃ a b, OuterStandsAt text outer a ∧ chain.Runs text a b ∧ e.Fits text ∧
      Gap text '(' b e.note.start ∧ Gap text ')' e.note.stop p

namespace State.StandsAt

/-- An operand that has been read where it was due. -/
theorem operand {outer : List Group} {group : Group} {p stop : Nat} {e : Expr Span}
    {opening : List Char} (h : (State.due outer group).StandsAt text p) (he : e.Fits text)
    (hopening : Between text p e.note.start opening) (hlayout : IsLayout '(' opening)
    (htoken : e.token? = none → '(' ∈ opening) (hclosing : Gap text ')' e.note.stop stop) :
    (State.read outer group.chain (negate group.bangs stop e)).StandsAt text stop := by
  obtain ⟨a, b, houter, hchain, hsigns⟩ := h
  exact ⟨a, b, houter, hchain, hsigns.negate he hopening hlayout htoken hclosing⟩

/-- **One token.** A state goes over to one that stands behind the token. -/
theorem step {state next : State} {t : Token} {p start stop : Nat} {blanks cs : List Char}
    (h : state.StandsAt text p) (hblanks : IsBlanks blanks) (hbefore : Between text p start blanks)
    (hspells : Token.Spells t cs) (htoken : Between text start stop cs)
    (hmem : ⟨t, ⟨start, stop⟩⟩ ∈ (Lexed.ofText text).tokens)
    (hstep : Takes ⟨start, stop⟩ state t next) : next.StandsAt text stop := by
  -- one case for each token that is taken; the gaps around it are extended by its blanks
  cases hstep with
  | bang outer group =>
    -- the run of signs goes on
    obtain ⟨a, b, houter, hchain, hsigns⟩ := h
    cases hspells
    exact ⟨a, b, houter, hchain, hsigns.concat hblanks hbefore htoken⟩
  | openParen outer group =>
    -- a new group starts behind the parenthesis, and the old one waits around it
    obtain ⟨a, b, houter, hchain, hsigns⟩ := h
    cases hspells
    exact ⟨stop, stop, .cons houter hchain hsigns hblanks (hbefore.append htoken), .nil, .nil⟩
  | literal outer group v =>
    exact h.operand (.literal hmem) hbefore (hblanks.isLayout '(') nofun
      (htoken.isBoundary_stop.gap ')')
  | identifier outer group name =>
    exact h.operand (.identifier hmem) hbefore (hblanks.isLayout '(') nofun
      (htoken.isBoundary_stop.gap ')')
  | operator outer chain e op =>
    -- the operand joins the chain, which now ends behind the operator
    obtain ⟨a, b, houter, hchain, he, hopening, closing, hclosing, hlayout⟩ := h
    cases hspells
    exact ⟨a, stop, houter, .cons hchain hopening he (hlayout.append (hblanks.isLayout ')'))
      ((hclosing.append hbefore).append htoken), .nil⟩
  | closeParen group outer chain e =>
    obtain ⟨a, b, houter, hchain, he, hopening, hclosing⟩ := h
    cases hspells
    cases houter with
    | cons earlier hchain' hsigns hblanks' hparen =>
      -- the tree of the group is an operand of the group around it, behind the opening parenthesis
      have hdue : (State.due outer group).StandsAt text _ := ⟨_, _, earlier, hchain', hsigns⟩
      obtain ⟨hfits, ⟨opening, hbetween, hlayout⟩, hstop⟩ := hchain.close hopening he
      refine hdue.operand hfits (hparen.append hbetween) ?_ (fun _ => ?_) ?_
      · exact ((hblanks'.isLayout '(').append (isLayout_paren '(')).append hlayout
      · exact List.mem_append_left _ (List.mem_append_right _ List.mem_cons_self)
      · rw [hstop]
        exact hclosing.trans ⟨_, hbefore.append htoken,
          (hblanks.isLayout ')').append (isLayout_paren ')')⟩

end State.StandsAt

/-- **All tokens.** Let a state stand behind `before`, from which the rest of the text is read to
its end. The tree fits the text. -/
theorem fits_of_runFrom (before : List Char) {cs : List Char} {state : State} {e : Expr Span}
    (htext : text = before ++ cs) (hstate : state.StandsAt text (byteLength before))
    (htokens : (Lexed.fromOffset (byteLength before) cs).tokens ⊆ (Lexed.ofText text).tokens)
    (h : runFrom state (byteLength before) cs = .ok e) : e.Fits text := by
  -- along the tokens; the state stands where the part that has been read ends
  induction cs using Lexed.reading_induction generalizing before state with
  | stop cs hnone =>
    obtain ⟨-, chain, operand, rfl, rfl⟩ := runFrom_stop hnone h
    obtain ⟨a, b, -, hchain, hfits, hopening, -⟩ := hstate
    exact (hchain.close hopening hfits).1
  | token blanks cs rest t hblanks hlexeme ih =>
    rw [runFrom_token hblanks hlexeme] at h
    rw [Lexed.fromOffset_some hblanks hlexeme] at htokens
    obtain ⟨hmem, hlater⟩ := List.cons_subset.mp htokens
    cases hstep : step state ⟨t, ⟨byteLength before + byteLength blanks,
        byteLength before + byteLength blanks + byteLength cs⟩⟩ with
    | error failure =>
      rw [hstep] at h
      cases h
    | ok next =>
      rw [hstep] at h
      have hblanksAt :
          Between text (byteLength before) (byteLength before + byteLength blanks) blanks :=
        ⟨before, cs ++ rest, by simp only [htext, List.append_assoc], rfl, rfl⟩
      have htokenAt : Between text (byteLength before + byteLength blanks)
          (byteLength before + byteLength blanks + byteLength cs) cs :=
        ⟨before ++ blanks, rest, by simp only [htext, List.append_assoc], byteLength_append _ _,
          rfl⟩
      have hnext := hstate.step hblanks hblanksAt hlexeme.spells htokenAt hmem
        (step_eq_ok_iff.mp hstep)
      have hlength : byteLength (before ++ blanks ++ cs) =
          byteLength before + byteLength blanks + byteLength cs := by
        rw [byteLength_append, byteLength_append]
      rw [← hlength] at h hnext hlater
      exact ih (before ++ blanks ++ cs) (by simp only [htext, List.append_assoc]) hnext hlater h

end Parser

namespace Condition

/-- **The tree of a condition** fits its text. -/
theorem fits_of_parse {text : String} {e : Expr Span} (h : parse text = .ok e) :
    e.Fits text.toList := by
  have hrun := (parse_eq_ok_iff.mp h).2
  have hinitial : (Parser.State.due [] .fresh).StandsAt text.toList 0 := ⟨0, 0, .nil, .nil, .nil⟩
  exact Parser.fits_of_runFrom [] rfl hinitial (List.Subset.refl _) hrun

/-- **Spans.** Every node of the tree of a condition is faithful to the text: its span is not empty,
cuts no character in two and has the spans of its operands in it; a literal or an identifier has the
span of its token, and the characters there read as it; a negation starts at a sign; and between the
operands of an operator stand blanks and parentheses, and its symbol exactly once. The negations of
one run of signs have one span. -/
theorem parse_spans (text : String) (e : Expr Span) (h : parse text = .ok e) :
    (∀ node ∈ e.nodes, node.Faithful text.toList) ∧ e.SharesSpans text.toList := by
  have hfits := fits_of_parse h
  exact ⟨hfits.faithful, hfits.sharesSpans⟩

/-- The tree of `! !(!a <= ('é') ) || b`. The two signs in a row have one span, which ends with the
parenthesis; the sign behind it has its own, and the parentheses around the literal are in no span
of their own. -/
theorem parse_spans_nested :
    let text := "! !(!a <= ('é') ) || b"
    let first : Expr Span := .not ⟨4, 6⟩ (.identifier ⟨5, 6⟩ "a")
    let compared : Expr Span := .binary ⟨4, 15⟩ .le first (.literal ⟨11, 15⟩ (.string "é"))
    let e : Expr Span :=
      .binary ⟨0, 23⟩ .or (.not ⟨0, 18⟩ (.not ⟨0, 18⟩ compared)) (.identifier ⟨22, 23⟩ "b")
    parse text = .ok e ∧ (∀ node ∈ e.nodes, node.Faithful text.toList) ∧
      e.SharesSpans text.toList := by
  intro text first compared e
  have h : parse text = .ok e := by decide +kernel
  exact ⟨h, parse_spans text e h⟩

end Condition

end CondRegions
