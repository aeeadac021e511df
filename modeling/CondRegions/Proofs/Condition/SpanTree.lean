import CondRegions.Condition.Parser
import CondRegions.Proofs.Condition.Seam

/-!
# Trees that fit a text

The tree of a condition carries spans. They fit the text if they can be read off it as the nodes are
put together (`Expr.Fits`).

* A literal or an identifier has the span of its token.
* Negation signs in a row are nodes with one span (`Expr.signed`). It starts at the first sign.
  Behind the signs come blanks and opening parentheses, then the operand, then blanks and closing
  parentheses, up to the end of the span.
* Between the two operands of an operator stand closing parentheses, the symbol and opening
  parentheses, with blanks anywhere between them (`Operator.Joins`).

Parentheses are in no node of their own, so what stands between two nodes is not only blanks; but it
is never more than a *gap*, blanks and parentheses of one kind (`Text.Gap`). From this follows what
can be said of each node alone (`Expr.Fits.faithful`), and that the negations of one run have one
span (`Expr.Fits.sharesSpans`): where an operand has signs of its own, its parenthesis is between
them and the signs before it.
-/

namespace CondRegions

/-! ### Gaps -/

namespace Text

/-- Blanks and parentheses of one kind. -/
def IsLayout (paren : Char) (cs : List Char) : Prop :=
  ∀ c ∈ cs, isBlank c = true ∨ c = paren

theorem IsLayout.append {paren : Char} {cs ds : List Char} (h : IsLayout paren cs)
    (h' : IsLayout paren ds) : IsLayout paren (cs ++ ds) :=
  List.forall_mem_append.mpr ⟨h, h'⟩

theorem IsBlanks.isLayout {cs : List Char} (h : IsBlanks cs) (paren : Char) : IsLayout paren cs :=
  fun c hc => .inl (h c hc)

theorem isLayout_paren (paren : Char) : IsLayout paren [paren] :=
  List.forall_mem_singleton.mpr (.inr rfl)

/-- **Gaps.** From `a` to `b` the text has only blanks and parentheses of one kind. -/
def Gap (text : List Char) (paren : Char) (a b : Nat) : Prop :=
  ∃ cs, Between text a b cs ∧ IsLayout paren cs

namespace Gap

variable {text : List Char} {paren : Char} {a b c : Nat}

theorem le (h : Gap text paren a b) : a ≤ b := by
  obtain ⟨cs, hcs, -⟩ := h
  exact hcs.le

theorem trans (h : Gap text paren a b) (h' : Gap text paren b c) : Gap text paren a c := by
  obtain ⟨cs, hcs, hlayout⟩ := h
  obtain ⟨ds, hds, hlayout'⟩ := h'
  exact ⟨cs ++ ds, hcs.append hds, hlayout.append hlayout'⟩

end Gap

theorem IsBoundary.gap {text : List Char} {a : Nat} (h : IsBoundary text a) (paren : Char) :
    Gap text paren a a :=
  ⟨[], h.between, nofun⟩

end Text

open Text

/-! ### Operators between operands -/

/-- **An operator joins two operands** if what stands between them is its symbol, with closing
parentheses before it, opening ones behind it, and blanks. -/
def Operator.Joins (op : Operator) (cs : List Char) : Prop :=
  ∃ before behind, cs = before ++ op.symbol.toList ++ behind ∧ IsLayout ')' before ∧
    IsLayout '(' behind

/-- Whether a character can stand in a gap. -/
def Text.isGapChar (c : Char) : Bool :=
  isBlank c || c == '(' || c == ')'

theorem Text.IsLayout.all_isGapChar {paren : Char} (hparen : paren = '(' ∨ paren = ')')
    {cs : List Char} (h : IsLayout paren cs) : ∀ c ∈ cs, isGapChar c = true := by
  intro c hc
  unfold isGapChar
  rcases h c hc with hblank | rfl
  · rw [hblank]
    rfl
  · rcases hparen with rfl | rfl <;> rfl

/-- No character of a symbol can stand in a gap. -/
theorem Operator.not_isGapChar (op : Operator) : ∀ c ∈ op.symbol.toList, isGapChar c = false := by
  have hall : (op.symbol.toList.all fun c => !isGapChar c) = true := by
    cases op <;> rfl
  intro c hc
  simpa using List.all_eq_true.mp hall c hc

/-- A symbol is not made of negation signs. -/
theorem Operator.exists_not_sign (op : Operator) :
    ∃ c ∈ op.symbol.toList, ¬ (c = '!' ∨ isBlank c = true) := by
  have hany : (op.symbol.toList.any fun c => !(c == '!' || isBlank c)) = true := by
    cases op <;> rfl
  obtain ⟨c, hc, hother⟩ := List.any_eq_true.mp hany
  exact ⟨c, hc, by simpa using hother⟩

/-- What stands before the symbol is as long as the gap there. -/
theorem Operator.takeWhile_isGapChar (op : Operator) {xs : List Char}
    (h : ∀ c ∈ xs, isGapChar c = true)
    (ys : List Char) : (xs ++ op.symbol.toList ++ ys).takeWhile isGapChar = xs := by
  -- the first character of the symbol ends the gap before it
  obtain ⟨c, more, hsymbol⟩ : ∃ c more, op.symbol.toList = c :: more :=
    List.exists_cons_of_ne_nil (Token.Spells.operator op).ne_nil
  have hc : ¬ isGapChar c = true := by
    rw [op.not_isGapChar c (by rw [hsymbol]; exact List.mem_cons_self)]
    exact Bool.false_ne_true
  rw [List.append_assoc, List.takeWhile_append_of_pos h, hsymbol, List.cons_append,
    List.takeWhile_cons_of_neg hc, List.append_nil]

/-- **The symbol stands there once.** -/
theorem Operator.Joins.once {op : Operator} {cs : List Char} (h : op.Joins cs) :
    ∃! cut : List Char × List Char, cs = cut.1 ++ op.symbol.toList ++ cut.2 := by
  obtain ⟨before, behind, rfl, hbefore, hbehind⟩ := h
  have hgap := hbefore.all_isGapChar (.inr rfl)
  have hgap' := hbehind.all_isGapChar (.inl rfl)
  refine ⟨(before, behind), rfl, ?_⟩
  rintro ⟨xs, ys⟩ hcut
  -- outside the gaps stand no more characters than the symbol has
  have hxs : ∀ c ∈ xs, isGapChar c = true := by
    have hcount := congrArg (List.countP fun c => !isGapChar c) hcut
    have hnone : ∀ {ds : List Char}, (∀ c ∈ ds, isGapChar c = true) →
        ds.countP (fun c => !isGapChar c) = 0 := by
      intro ds hds
      exact List.countP_eq_zero.mpr fun c hc => by simp [hds c hc]
    simp only [List.countP_append, hnone hgap, hnone hgap'] at hcount
    have hzero : xs.countP (fun c => !isGapChar c) = 0 := by omega
    intro c hc
    simpa using List.countP_eq_zero.mp hzero c hc
  -- so both cuts are where the first gap ends
  obtain rfl : xs = before := by
    rw [← op.takeWhile_isGapChar hxs ys, ← hcut, op.takeWhile_isGapChar hgap behind]
  rw [List.append_assoc, List.append_assoc] at hcut
  rw [List.append_cancel_left (List.append_cancel_left hcut)]

/-! ### Runs of negation signs -/

/-- Negation signs in a row, `n` of them, with blanks between them. -/
structure Text.IsSigns (n : Nat) (cs : List Char) : Prop where
  first : cs.head? = some '!'
  only : ∀ c ∈ cs, c = '!' ∨ isBlank c = true
  count : cs.count '!' = n

namespace Text.IsSigns

variable {n : Nat} {cs : List Char}

theorem one : IsSigns 1 ['!'] :=
  ⟨rfl, List.forall_mem_singleton.mpr (.inl rfl), rfl⟩

/-- One more sign, behind blanks. -/
theorem concat (h : IsSigns n cs) {blanks : List Char} (hblanks : IsBlanks blanks) :
    IsSigns (n + 1) (cs ++ blanks ++ ['!']) := by
  obtain ⟨c, more, rfl⟩ : ∃ c more, cs = c :: more :=
    List.exists_cons_of_ne_nil (by rintro rfl; cases h.first)
  refine ⟨h.first, ?_, ?_⟩
  · refine List.forall_mem_append.mpr ⟨List.forall_mem_append.mpr ⟨h.only, ?_⟩, one.only⟩
    exact fun c hc => .inr (hblanks c hc)
  · -- blanks add no sign, so there is one more than before
    have hnone : blanks.count '!' = 0 := by
      refine List.count_eq_zero.mpr fun hmem => ?_
      exact absurd (hblanks '!' hmem) (by decide)
    rw [List.count_append, List.count_append, h.count, hnone]
    rfl

theorem pos (h : IsSigns n cs) : 0 < n := by
  rw [← h.count, List.count_pos_iff]
  exact List.mem_of_mem_head? h.first

theorem ne_nil (h : IsSigns n cs) : cs ≠ [] := by
  rintro rfl
  cases h.first

end Text.IsSigns

namespace Expr

variable {α : Type}

/-- An expression behind `n` negation signs whose nodes all have one annotation. -/
def signed (note : α) (e : Expr α) : Nat → Expr α
  | 0 => e
  | n + 1 => .not note (e.signed note n)

theorem note_signed {note : α} {e : Expr α} {n : Nat} (h : 0 < n) :
    (e.signed note n).note = note := by
  cases n with
  | zero => cases h
  | succ n => rfl

/-- A negation behind signs is one more sign. -/
theorem signed_not (note : α) (e : Expr α) (n : Nat) :
    (Expr.not note e).signed note n = e.signed note (n + 1) := by
  induction n with
  | zero => rfl
  | succ n ih => exact congrArg (Expr.not note) ih

/-! ### Nodes -/

/-- All nodes of an expression, the root first. -/
def nodes : Expr α → List (Expr α)
  | .literal a v => [.literal a v]
  | .identifier a name => [.identifier a name]
  | .not a e => .not a e :: e.nodes
  | .binary a op l r => .binary a op l r :: (l.nodes ++ r.nodes)

/-- The nodes right below the root. -/
def operands : Expr α → List (Expr α)
  | .literal _ _ | .identifier _ _ => []
  | .not _ e => [e]
  | .binary _ _ l r => [l, r]

/-- The token of a literal or an identifier. -/
def token? : Expr α → Option Token
  | .literal _ v => some (.literal v)
  | .identifier _ name => some (.identifier name)
  | .not _ _ | .binary _ _ _ _ => none

/-- The nodes of an expression behind signs are those of the signs and those of the expression. -/
theorem mem_nodes_signed {note : α} {e node : Expr α} {n : Nat} :
    node ∈ (e.signed note n).nodes ↔ (∃ k < n, node = .not note (e.signed note k)) ∨
      node ∈ e.nodes := by
  -- each sign adds one node, whose operand has one sign less
  induction n with
  | zero => exact ⟨.inr, fun h => h.resolve_left fun ⟨k, hk, _⟩ => absurd hk (Nat.not_lt_zero k)⟩
  | succ n ih =>
    rw [signed, nodes, List.mem_cons, ih]
    constructor
    · rintro (rfl | ⟨k, hk, rfl⟩ | hnode)
      · exact .inl ⟨n, Nat.lt_succ_self n, rfl⟩
      · exact .inl ⟨k, Nat.lt_succ_of_lt hk, rfl⟩
      · exact .inr hnode
    · rintro (⟨k, hk, rfl⟩ | hnode)
      · rcases Nat.lt_succ_iff_lt_or_eq.mp hk with hlt | rfl
        · exact .inr (.inl ⟨k, hlt, rfl⟩)
        · exact .inl rfl
      · exact .inr (.inr hnode)

/-- A literal or an identifier has no negation in it. -/
theorem token?_of_not_mem_nodes {e x : Expr α} {note : α} (h : .not note x ∈ e.nodes) :
    e.token? = none := by
  cases e with
  | literal | identifier => cases List.mem_singleton.mp h
  | not | binary => rfl

/-! ### Trees and their spans -/

/-- **A run of signs before an operand.** From the start of the span on, the text has `n` signs. A
gap is between them and the operand, and one is between the operand and the end of the span. An
operand of more than one token is in parentheses. -/
structure IsRun (text : List Char) (span : Span) (n : Nat) (e : Expr Span) : Prop where
  signs : ∃ signs opening middle, Between text span.start middle signs ∧ IsSigns n signs ∧
    Between text middle e.note.start opening ∧ IsLayout '(' opening ∧
    (e.token? = none → '(' ∈ opening)
  closing : Gap text ')' e.note.stop span.stop

/-- **Trees that fit a text**, spans included. -/
inductive Fits (text : List Char) : Expr Span → Prop where
  | literal {span : Span} {v : Value} (h : ⟨.literal v, span⟩ ∈ (Lexed.ofText text).tokens) :
      Fits text (.literal span v)
  | identifier {span : Span} {name : String}
      (h : ⟨.identifier name, span⟩ ∈ (Lexed.ofText text).tokens) :
      Fits text (.identifier span name)
  | signed {span : Span} {n : Nat} {e : Expr Span} (h : Fits text e) (hrun : e.IsRun text span n) :
      Fits text (e.signed span n)
  | binary {op : Operator} {l r : Expr Span} {cs : List Char} (hl : Fits text l) (hr : Fits text r)
      (hbetween : Between text l.note.stop r.note.start cs) (hjoins : op.Joins cs) :
      Fits text (Parser.binary op l r)

/-- A span that is not empty and cuts no character of the text in two. -/
structure IsProper (text : List Char) (span : Span) : Prop where
  nonempty : span.start < span.stop
  start : IsBoundary text span.start
  stop : IsBoundary text span.stop

/-- The span of a token. -/
theorem isProper_of_mem_tokens {text : List Char} {t : Token} {span : Span}
    (h : ⟨t, span⟩ ∈ (Lexed.ofText text).tokens) : IsProper text span := by
  obtain ⟨before, cs, after, htext, hlexeme, hspan⟩ := Lexed.stands_ofText h
  have hbetween : Between text span.start span.stop cs := by
    rw [show span = _ from hspan]
    exact ⟨before, after, htext, rfl, rfl⟩
  exact ⟨hbetween.lt hlexeme.spells.ne_nil, hbetween.isBoundary_start, hbetween.isBoundary_stop⟩

/-- A run reaches from before its operand to behind it. -/
theorem IsRun.bounds {text : List Char} {span : Span} {n : Nat} {e : Expr Span}
    (h : e.IsRun text span n) : 0 < n ∧ span.start < e.note.start ∧ e.note.stop ≤ span.stop := by
  obtain ⟨signs, opening, middle, hsigns, hcount, hopening, -, -⟩ := h.signs
  exact ⟨hcount.pos, Nat.lt_of_lt_of_le (hsigns.lt hcount.ne_nil) hopening.le, h.closing.le⟩

/-- **The span of the root.** -/
theorem Fits.isProper {text : List Char} {e : Expr Span} (h : e.Fits text) :
    IsProper text e.note := by
  -- on the tree; the ends of a span are those of a token, a sign or a closing gap
  induction h with
  | literal h => exact isProper_of_mem_tokens h
  | identifier h => exact isProper_of_mem_tokens h
  | @signed span n e _ hrun ih =>
    obtain ⟨hn, hstart, hstop⟩ := hrun.bounds
    obtain ⟨signs, -, middle, hsigns, -⟩ := hrun.signs
    obtain ⟨closing, hclosing, -⟩ := hrun.closing
    have hnonempty := ih.nonempty
    rw [note_signed hn]
    exact ⟨by omega, hsigns.isBoundary_start, hclosing.isBoundary_stop⟩
  | @binary op l r cs _ _ hbetween _ ihl ihr =>
    have hle := hbetween.le
    have hl := ihl.nonempty
    have hr := ihr.nonempty
    refine ⟨?_, ihl.start, ihr.stop⟩
    show l.note.start < r.note.stop
    omega

/-! ### Faithful nodes -/

/-- **Faithful nodes.** What the span of a node says about the text. -/
structure Faithful (text : List Char) (node : Expr Span) : Prop where
  /-- The span is not empty, lies in the text and cuts no character in two. -/
  proper : IsProper text node.note
  /-- It has the spans of the operands in it. -/
  inside : ∀ child ∈ node.operands, node.note.contains child.note = true
  /-- A literal or an identifier has the span of its token, and what stands there reads as the
  token. -/
  token : ∀ t, node.token? = some t →
    ⟨t, node.note⟩ ∈ (Lexed.ofText text).tokens ∧
    Token.scan? (node.note.extract text) = some (t, [])
  /-- A negation starts at a sign. -/
  sign : ∀ span x, node = .not span x → (span.extract text).head? = some '!'
  /-- An operator has its first operand before the second one. Between them stand blanks and
  parentheses, and the symbol exactly once. -/
  joined : ∀ span op l r, node = .binary span op l r →
    l.note.stop < r.note.start ∧ op.Joins (slice text l.note.stop r.note.start) ∧
      ∃! cut : List Char × List Char,
        slice text l.note.stop r.note.start = cut.1 ++ op.symbol.toList ++ cut.2

namespace Faithful

variable {text : List Char} {node : Expr Span}

/-- A literal or an identifier with the span of its token. -/
theorem of_mem_tokens {t : Token} (htoken : node.token? = some t)
    (h : ⟨t, node.note⟩ ∈ (Lexed.ofText text).tokens) : node.Faithful text := by
  obtain ⟨before, cs, after, rfl, hlexeme, hspan⟩ := Lexed.stands_ofText h
  have hscan : Token.scan? (node.note.extract (before ++ cs ++ after)) = some (t, []) := by
    have hslice : node.note.extract (before ++ cs ++ after) = cs := by
      rw [show node.note = _ from hspan]
      exact slice_split before cs after
    -- a lexeme is read in the same way when nothing follows it
    have halone := hlexeme.spells.lexeme.scan?_eq
    rwa [List.append_nil, ← hslice] at halone
  have hread : ∀ u, node.token? = some u →
      ⟨u, node.note⟩ ∈ (Lexed.ofText (before ++ cs ++ after)).tokens ∧
      Token.scan? (node.note.extract (before ++ cs ++ after)) = some (u, []) := by
    intro u hu
    obtain rfl := Option.some.inj (htoken.symm.trans hu)
    exact ⟨h, hscan⟩
  cases node with
  | literal | identifier => exact ⟨isProper_of_mem_tokens h, nofun, hread, nofun, nofun⟩
  | not | binary => cases htoken

/-- A negation of a run. -/
theorem of_isRun {span : Span} {n k : Nat} {e : Expr Span} (hrun : e.IsRun text span n)
    (hproper : IsProper text span) (he : IsProper text e.note) :
    Faithful text (.not span (e.signed span k)) := by
  obtain ⟨hn, hstart, hstop⟩ := hrun.bounds
  refine ⟨hproper, ?_, nofun, ?_, nofun⟩
  · -- the operand is the next negation, which has the same span, or the operand of the run
    intro child hchild
    obtain rfl := List.mem_singleton.mp hchild
    rw [Span.contains_eq_true]
    cases k with
    | zero => exact ⟨Nat.le_of_lt hstart, hstop⟩
    | succ k => exact ⟨Nat.le_refl _, Nat.le_refl _⟩
  · intro span' x hnode
    obtain ⟨rfl, -⟩ := Expr.not.inj hnode
    -- the signs are the first part of what the span covers
    obtain ⟨signs, opening, middle, hbetween, hsigns, hopening, -, -⟩ := hrun.signs
    have hle := hopening.le
    have hnonempty := he.nonempty
    have hrest := hopening.isBoundary_start.between_slice hproper.stop (by omega)
    show (slice text span.start span.stop).head? = some '!'
    rw [(hbetween.append hrest).slice_eq, List.head?_append_of_ne_nil _ hsigns.ne_nil]
    exact hsigns.first

/-- An operator between its operands. -/
theorem of_joins {op : Operator} {l r : Expr Span} {cs : List Char}
    (hbetween : Between text l.note.stop r.note.start cs) (hjoins : op.Joins cs)
    (hl : IsProper text l.note)
    (hr : IsProper text r.note) : Faithful text (Parser.binary op l r) := by
  -- there is a symbol between the operands, so they do not touch
  have hne : cs ≠ [] := by
    obtain ⟨before, behind, rfl, -⟩ := hjoins
    exact List.append_ne_nil_of_left_ne_nil
      (List.append_ne_nil_of_right_ne_nil before (Token.Spells.operator op).ne_nil) behind
  have hlt := hbetween.lt hne
  have hleft := hl.nonempty
  have hright := hr.nonempty
  refine ⟨⟨?_, hl.start, hr.stop⟩, ?_, nofun, nofun, ?_⟩
  · show l.note.start < r.note.stop
    omega
  · intro child hchild
    rw [Span.contains_eq_true]
    show l.note.start ≤ child.note.start ∧ child.note.stop ≤ r.note.stop
    rcases List.mem_pair.mp hchild with rfl | rfl
    · exact ⟨Nat.le_refl _, by omega⟩
    · exact ⟨by omega, Nat.le_refl _⟩
  · intro span op' l' r' hnode
    obtain ⟨rfl, rfl, rfl, rfl⟩ := Expr.binary.inj hnode
    rw [hbetween.slice_eq]
    exact ⟨hlt, hjoins, hjoins.once⟩

end Faithful

namespace Fits

variable {text : List Char} {e : Expr Span}

/-- **All nodes of a tree that fits** are faithful. -/
theorem faithful (h : e.Fits text) : ∀ node ∈ e.nodes, node.Faithful text := by
  -- on the tree, with one lemma for each sort of node
  induction h with
  | literal h => exact List.forall_mem_singleton.mpr (.of_mem_tokens rfl h)
  | identifier h => exact List.forall_mem_singleton.mpr (.of_mem_tokens rfl h)
  | @signed span n e h hrun ih =>
    have hproper := (h.signed hrun).isProper
    rw [note_signed hrun.bounds.1] at hproper
    intro node hnode
    rcases mem_nodes_signed.mp hnode with ⟨k, -, rfl⟩ | hbelow
    · exact .of_isRun hrun hproper h.isProper
    · exact ih node hbelow
  | binary hl hr hbetween hjoins ihl ihr =>
    refine List.forall_mem_cons.mpr ⟨.of_joins hbetween hjoins hl.isProper hr.isProper, ?_⟩
    exact List.forall_mem_append.mpr ⟨ihl, ihr⟩

/-- The spans of all nodes lie in that of the root. -/
theorem within (h : e.Fits text) :
    ∀ node ∈ e.nodes, e.note.start ≤ node.note.start ∧ node.note.stop ≤ e.note.stop := by
  -- spans grow towards the root, at both ends
  induction h with
  | literal => exact List.forall_mem_singleton.mpr ⟨Nat.le_refl _, Nat.le_refl _⟩
  | identifier => exact List.forall_mem_singleton.mpr ⟨Nat.le_refl _, Nat.le_refl _⟩
  | @signed span n e h hrun ih =>
    obtain ⟨hn, hstart, hstop⟩ := hrun.bounds
    rw [note_signed hn]
    intro node hnode
    rcases mem_nodes_signed.mp hnode with ⟨k, -, rfl⟩ | hbelow
    · exact ⟨Nat.le_refl _, Nat.le_refl _⟩
    · obtain ⟨hstart', hstop'⟩ := ih node hbelow
      omega
  | @binary op l r cs hl hr hbetween hjoins ihl ihr =>
    have hle := hbetween.le
    have hleft := hl.isProper.nonempty
    have hright := hr.isProper.nonempty
    show ∀ node ∈ (Parser.binary op l r).nodes, l.note.start ≤ node.note.start ∧
        node.note.stop ≤ r.note.stop
    refine List.forall_mem_cons.mpr ⟨⟨Nat.le_refl _, Nat.le_refl _⟩,
      List.forall_mem_append.mpr ⟨?_, ?_⟩⟩
    · intro node hnode
      obtain ⟨hstart, hstop⟩ := ihl node hnode
      omega
    · intro node hnode
      obtain ⟨hstart, hstop⟩ := ihr node hnode
      omega

end Fits

/-! ### One run, one span -/

/-- From `a` to `b` the text goes on with one run: there are only signs and blanks. -/
def OneRun (text : List Char) (a b : Nat) : Prop :=
  ∀ c ∈ slice text a b, c = '!' ∨ isBlank c = true

/-- In a run there is nothing but signs and blanks. -/
theorem OneRun.of_between {text cs : List Char} {a b p q : Nat} {c : Char} (h : OneRun text a b)
    (ha : IsBoundary text a) (hb : IsBoundary text b) (hap : a ≤ p) (hqb : q ≤ b)
    (hcs : Between text p q cs) (hc : c ∈ cs) : c = '!' ∨ isBlank c = true := by
  -- the slice is cut at the two ends of the part
  have hfirst := ha.between_slice hcs.isBoundary_start hap
  have hlast := hcs.isBoundary_stop.between_slice hb hqb
  refine h c ?_
  rw [((hfirst.append hcs).append hlast).slice_eq]
  exact List.mem_append_left _ (List.mem_append_right _ hc)

/-- **One run, one span.** Two negations with only signs and blanks from the start of the one to
that of the other have one span. -/
def SharesSpans (text : List Char) (e : Expr Span) : Prop :=
  ∀ s x s' x', .not s x ∈ e.nodes → .not s' x' ∈ e.nodes → s.start ≤ s'.start →
    OneRun text s.start s'.start → s = s'

/-- **The negations of a tree that fits** have one span for each run. -/
theorem Fits.sharesSpans {text : List Char} {e : Expr Span} (h : e.Fits text) :
    e.SharesSpans text := by
  intro s x s' x' hnode hnode' hle hone
  have hstart : IsBoundary text s.start := (h.faithful _ hnode).proper.start
  have hstart' : IsBoundary text s'.start := (h.faithful _ hnode').proper.start
  -- on the tree: the two negations are in one run, in one operand, or apart
  induction h with
  | literal | identifier => cases List.mem_singleton.mp hnode
  | @signed span n e h hrun ih =>
    rcases mem_nodes_signed.mp hnode with ⟨k, -, hk⟩ | hbelow <;>
      rcases mem_nodes_signed.mp hnode' with ⟨k', -, hk'⟩ | hbelow'
    · rw [(Expr.not.inj hk).1, (Expr.not.inj hk').1]
    · -- a sign of the run, and one of the operand: the parenthesis of the operand is between them
      obtain ⟨rfl, -⟩ := Expr.not.inj hk
      obtain ⟨signs, opening, middle, hsigns, -, hopening, -, hparen⟩ := hrun.signs
      have hmem := hparen (token?_of_not_mem_nodes hbelow')
      have hbad := hone.of_between hstart hstart' hsigns.le (h.within _ hbelow').1 hopening hmem
      exact absurd hbad (by decide)
    · -- the run starts before its operand
      obtain ⟨rfl, -⟩ := Expr.not.inj hk'
      have hbefore := hrun.bounds.2.1
      have hinside : e.note.start ≤ s.start := (h.within _ hbelow).1
      omega
    · exact ih hbelow hbelow'
  | @binary op l r cs hl hr hbetween hjoins ihl ihr =>
    -- an operator is no negation, so both lie in one of its operands
    have hside : ∀ {span : Span} {x : Expr Span}, .not span x ∈ (Parser.binary op l r).nodes →
        .not span x ∈ l.nodes ∨ .not span x ∈ r.nodes := by
      intro span x hmem
      rcases List.mem_cons.mp hmem with hroot | hbelow
      · cases hroot
      · exact List.mem_append.mp hbelow
    have hinside : ∀ {span : Span} {x : Expr Span}, .not span x ∈ l.nodes →
        span.start < l.note.stop := by
      intro span x hmem
      exact Nat.lt_of_lt_of_le (hl.faithful _ hmem).proper.nonempty (hl.within _ hmem).2
    rcases hside hnode with hleft | hright <;> rcases hside hnode' with hleft' | hright'
    · exact ihl hleft hleft'
    · -- the symbol is between the two
      obtain ⟨before, behind, rfl, -, -⟩ := hjoins
      obtain ⟨c, hc, hbad⟩ := op.exists_not_sign
      have hmem : c ∈ before ++ op.symbol.toList ++ behind :=
        List.mem_append_left _ (List.mem_append_right _ hc)
      exact absurd (hone.of_between hstart hstart' (Nat.le_of_lt (hinside hleft))
        (hr.within _ hright').1
        hbetween hmem) hbad
    · -- the first one would lie behind the second one
      have hbefore : r.note.start ≤ s.start := (hr.within _ hright).1
      have hbehind := hinside hleft'
      have hgap := hbetween.le
      omega
    · exact ihr hright hright'

end Expr

end CondRegions
