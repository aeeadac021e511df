import CondRegions.Proofs.Condition.Context
import CondRegions.Proofs.Condition.Place
import CondRegions.Proofs.Condition.Viable

/-!
# The first error of a condition

A condition that does not parse has its error at the first place where it cannot go on. What stands
before that place is made of tokens and can be completed to a condition; at the place itself,
nothing starts that the grammar allows behind those tokens.

*What starts a text.* A symbol starts a text as soon as the text begins with it, even if a longer
symbol is read there; a name, a numeral or a string starts it only as a whole (`Token.StartsAt`).
Where a token starts, the scanner reads it or a longer operator (`Token.StartsAt.exists_scan?`).

*Why a run stops.* There are three reasons, and at each of them nothing that may stand next starts
what is left (`Parser.Blocked`): no token is read at all (`Parser.blocked_of_scan?`), a token is
read that may not stand there (`Parser.blocked_of_lexeme`), or an operand is due and `!=` or `!==`
is read, of which the first character is a negation sign and the second starts no operand
(`Parser.blocked_behind_bang`).

A run is followed from token to token, up to where it stops (`Parser.exists_blocked`). The tokens
before stay what they are if the text is cut behind them, and if a completion is put there
(`Lexes.exists_parse_completed`).
-/

namespace CondRegions

/-! ### Tokens at the start of a text -/

namespace Token

/-- **A token starts a text.** The text begins with a spelling of it, which is its lexeme there
unless the token is a symbol. -/
def StartsAt (t : Token) (text : List Char) : Prop :=
  ∃ cs rest, text = cs ++ rest ∧ Spells t cs ∧ (t.isSymbol = true ∨ Lexeme t cs rest)

/-- A negation sign is read as one, or as the first character of an operator. -/
theorem scan?_bang (rest : List Char) :
    ∃ u rest', scan? ('!' :: rest) = some (u, rest') ∧
      (u = .bang ∨ u = .operator .ne ∨ u = .operator .strictNe) := by
  -- the sign is read alone unless an equals sign follows, and then one or two of them count
  by_cases h : ∃ more, rest = '=' :: more
  · obtain ⟨more, rfl⟩ := h
    by_cases h' : ∃ more', more = '=' :: more'
    · obtain ⟨more', rfl⟩ := h'
      exact ⟨.operator .strictNe, more', rfl, .inr (.inr rfl)⟩
    · rw [not_exists] at h'
      refine ⟨.operator .ne, more, scan?_of_scanSymbol? ?_, .inr (.inl rfl)⟩
      simp [scanSymbol?]
  · have hbang := (Lexeme.bang (not_exists.mp h)).scan?_eq
    exact ⟨.bang, rest, hbang, .inl rfl⟩

/-- **Where a token starts**, it is read; or another operator is read, of which it is a part. -/
theorem StartsAt.exists_scan? {t : Token} {text : List Char} (h : t.StartsAt text) :
    ∃ u rest, scan? text = some (u, rest) ∧
      (u = t ∨ (∃ op op', t = .operator op ∧ u = .operator op') ∨
        t = .bang ∧ (u = .operator .ne ∨ u = .operator .strictNe)) := by
  -- a symbol may be cut off from a longer one, anything else is read as a whole
  obtain ⟨cs, rest, rfl, hspells, hsymbol | hlexeme⟩ := h
  · cases hspells with
    | openParen => exact ⟨_, _, rfl, .inl rfl⟩
    | closeParen => exact ⟨_, _, rfl, .inl rfl⟩
    | bang =>
      obtain ⟨u, rest', hscan, hu⟩ := scan?_bang rest
      exact ⟨u, rest', hscan, hu.imp_right fun hop => .inr ⟨rfl, hop⟩⟩
    | operator op =>
      obtain ⟨op', rest', hscan, -⟩ := scan?_operator op rest
      exact ⟨.operator op', rest', hscan, .inr (.inl ⟨op, op', rfl, rfl⟩)⟩
    | integer | decimal | string | keyword | identifier => cases hsymbol
  · exact ⟨t, rest, hlexeme.scan?_eq, .inl rfl⟩

/-- What starts with an equals sign is an operator. -/
theorem StartsAt.operator_of_equals {t : Token} {more : List Char} (h : t.StartsAt ('=' :: more)) :
    ∃ op, t = .operator op := by
  obtain ⟨cs, rest, htext, hspells, -⟩ := h
  obtain ⟨c, cs, rfl⟩ := List.exists_cons_of_ne_nil hspells.ne_nil
  obtain ⟨rfl, -⟩ := List.cons.inj htext
  exact hspells.operator_of_equals

end Token

namespace Parser

open Token

/-! ### Where a run stops -/

/-- **The text cannot go on** behind the tokens: nothing that may stand next starts it, and it does
not end where a condition may. -/
structure Blocked (ts : List Token) (text : List Char) : Prop where
  starts : ∀ t, mayFollow ts t = true → ¬ t.StartsAt text
  ends : mayEnd ts = true → text ≠ []

variable {ts : List Token} {t : Token}

/-- Nothing starts where the scanner reads nothing. -/
theorem blocked_of_scan? {text : List Char} (h : scan? text = none)
    (hend : mayEnd ts = true → text ≠ []) : Blocked ts text := by
  refine ⟨fun t _ hstart => ?_, hend⟩
  -- what starts the text would be read, or something longer would
  obtain ⟨u, rest, hscan, -⟩ := hstart.exists_scan?
  rw [h] at hscan
  cases hscan

/-- Where a token is read that may not stand there, nothing starts that may. The exception is a
negation sign, if an operand is due and the token is an operator that begins with it. -/
theorem blocked_of_lexeme {cs rest : List Char} (h : Lexeme t cs rest)
    (hrefused : mayFollow ts t = false)
    (hbang : operandDue ts = true → t ≠ .operator .ne ∧ t ≠ .operator .strictNe) :
    Blocked ts (cs ++ rest) := by
  refine ⟨fun u hu hstart => ?_, fun _ => List.append_ne_nil_of_left_ne_nil h.spells.ne_nil rest⟩
  obtain ⟨t', rest', hscan, hcases⟩ := hstart.exists_scan?
  -- what is read is the token of the lexeme
  rw [h.scan?_eq] at hscan
  obtain ⟨rfl, -⟩ := Prod.mk.inj (Option.some.inj hscan)
  rcases hcases with rfl | ⟨op, op', rfl, rfl⟩ | ⟨rfl, hop⟩
  · rw [hrefused] at hu
    cases hu
  · -- of two operators, one may stand there if the other may
    exact absurd (hu.symm.trans hrefused) (by decide)
  · -- a negation sign may stand where an operand is due, and this is the exception
    obtain ⟨hne, hstrict⟩ := hbang hu
    exact hop.elim hne hstrict

/-- Behind a negation sign an operand is due, and an equals sign starts none. -/
theorem blocked_behind_bang (ts : List Token) (more : List Char) :
    Blocked (ts ++ [.bang]) ('=' :: more) := by
  have hdue : operandDue (ts ++ [.bang]) = true := operandDue_concat ts .bang
  refine ⟨fun t ht hstart => ?_, fun _ => List.cons_ne_nil _ _⟩
  obtain ⟨op, rfl⟩ := hstart.operator_of_equals
  unfold mayFollow at ht
  rw [hdue] at ht
  cases ht

/-- **A token that is refused** may not stand there. The failure is at its start; or an operand is
due, the token is one of the two operators that begin with a negation sign, and the failure is
behind that sign. -/
theorem State.Follows.refused {state : State} (h : state.Follows ts) {span : Span}
    {failure : Failure} (hstep : Parser.step state ⟨t, span⟩ = .error failure) :
    mayFollow ts t = false ∧
      (failure.position = span.start ∧
          (operandDue ts = true → t ≠ .operator .ne ∧ t ≠ .operator .strictNe) ∨
        failure.position = span.start + 1 ∧ operandDue ts = true ∧
          (t = .operator .ne ∨ t = .operator .strictNe)) := by
  -- the step table and the table of what may stand next are the same table
  have hrefused : mayFollow ts t = false := by
    refine Bool.eq_false_iff.mpr fun hfollow => ?_
    obtain ⟨next, htakes⟩ := (h.takes_iff t span).mpr hfollow
    rw [step_eq_ok_iff.mpr htakes] at hstep
    cases hstep
  refine ⟨hrefused, ?_⟩
  rcases position_of_step hstep with hposition | ⟨hposition, hop⟩
  · refine .inl ⟨hposition, fun hdue => ?_⟩
    -- where an operand is due, the two operators fail one byte later
    rw [← h.due] at hdue
    cases state with
    | read => cases hdue
    | due outer group =>
      constructor
      · rintro rfl
        obtain rfl := Except.error.inj hstep
        exact absurd hposition (Nat.succ_ne_self _)
      · rintro rfl
        obtain rfl := Except.error.inj hstep
        exact absurd hposition (Nat.succ_ne_self _)
  · refine .inr ⟨hposition, ?_, hop⟩
    -- behind an operand, every operator is taken
    rcases hop with rfl | rfl <;> simpa [mayFollow] using hrefused

/-- **Why a run fails.** Let tokens have led to a state, from which a text is not read to its end.
The text is cut at the place of the failure: what stands before it is made of tokens, all tokens so
far are viable, and the text cannot go on behind them. -/
theorem exists_blocked {cs : List Char} {ts : List Token} {state : State} {offset : Nat}
    {failure : Failure} (h : Reaches ts state) (hrun : runFrom state offset cs = .error failure) :
    ∃ before rest us, cs = before ++ rest ∧ failure.position = offset + Text.byteLength before ∧
      Lexes before us ∧ Viable (ts ++ us) ∧ Blocked (ts ++ us) rest := by
  -- along the tokens of the text; a token that is taken joins those before
  induction cs using Lexed.reading_induction generalizing ts state offset with
  | stop cs hnone =>
    -- no token follows: the failure is behind the blanks
    obtain ⟨blanks, hblanks, hcs, -⟩ := Text.skipBlanks_cases cs
    have hlength : Text.byteLength cs =
        Text.byteLength blanks + Text.byteLength (Text.skipBlanks cs) := by
      rw [← Text.byteLength_append, ← hcs]
    unfold runFrom at hrun
    rw [Lexed.fromOffset_none hnone] at hrun
    change finish _ state = .error failure at hrun
    refine ⟨blanks, Text.skipBlanks cs, [], hcs, ?_, .done hblanks, ?_, ?_⟩
    · unfold finish at hrun
      split at hrun
      · cases hrun
      · obtain rfl := Except.error.inj hrun
        show offset + (Text.byteLength cs - Text.byteLength (Text.skipBlanks cs)) = _
        omega
    · rw [List.append_nil]
      exact viable_iff.mpr ⟨state, h⟩
    · rw [List.append_nil]
      refine blocked_of_scan? hnone fun hend hnil => ?_
      -- at the end of the text, where the condition may end, the run would have ended well
      obtain ⟨chain, e, rfl⟩ := h.follows.isRead_iff.mpr hend
      rw [hnil] at hrun
      cases hrun
  | token blanks cs rest t hblanks hlexeme ih =>
    rw [runFrom_token hblanks hlexeme] at hrun
    cases hstep : step state ⟨t, ⟨offset + Text.byteLength blanks,
        offset + Text.byteLength blanks + Text.byteLength cs⟩⟩ with
    | ok next =>
      -- the token is taken, and the failure comes later
      rw [hstep] at hrun
      obtain ⟨before, behind, us, rfl, hposition, hlexes, hviable, hblocked⟩ :=
        ih (h.concat (step_eq_ok_iff.mp hstep)) hrun
      refine ⟨blanks ++ cs ++ before, behind, t :: us, ?_, ?_, ?_, ?_, ?_⟩
      · exact (List.append_assoc _ _ _).symm
      · rw [hposition, Text.byteLength_append, Text.byteLength_append]
        omega
      · exact .token hblanks hlexeme.cut hlexes
      · rwa [List.append_cons]
      · rwa [List.append_cons]
    | error failure' =>
      rw [hstep] at hrun
      obtain rfl := Except.error.inj hrun
      obtain ⟨hrefused, ⟨hposition, hbang⟩ | ⟨hposition, hdue, hop⟩⟩ := h.follows.refused hstep
      · -- the token itself cannot stand here
        refine ⟨blanks, cs ++ rest, [], ?_, hposition, .done hblanks, ?_, ?_⟩
        · rw [List.append_assoc]
        · rw [List.append_nil]
          exact viable_iff.mpr ⟨state, h⟩
        · rw [List.append_nil]
          exact blocked_of_lexeme hlexeme hrefused hbang
      · -- its first character is a negation sign, which can, and an equals sign follows
        obtain ⟨more, rfl⟩ : ∃ more, cs = '!' :: '=' :: more := by
          have hspells := hlexeme.spells
          rcases hop with rfl | rfl <;>
          · cases hspells
            exact ⟨_, rfl⟩
        -- so the text is cut behind the sign, which counts as read
        have hsign : Lexes (blanks ++ ['!'] ++ []) [.bang] :=
          .token hblanks (.bang nofun) (.done .nil)
        rw [List.append_nil] at hsign
        refine ⟨blanks ++ ['!'], '=' :: more ++ rest, [.bang], ?_, ?_, hsign, ?_, ?_⟩
        · simp only [List.append_assoc, List.cons_append, List.nil_append]
        · rw [hposition, Text.byteLength_append]
          rfl
        · exact ((viable_iff.mpr ⟨state, h⟩).concat_iff .bang).mpr hdue
        · exact blocked_behind_bang ts (more ++ rest)

end Parser

open CondRegions.Parser

/-! ### Completed texts -/

/-- Closing parentheses put behind a text. -/
theorem Lexes.append_closing {cs : List Char} {ts : List Token} (h : Lexes cs ts) (n : Nat) :
    Lexes (cs ++ List.replicate n ')') (ts ++ List.replicate n .closeParen) := by
  -- a parenthesis is a delimiter, so it can be put behind any token
  induction n with
  | zero => rwa [List.replicate_zero, List.replicate_zero, List.append_nil, List.append_nil]
  | succ n ih =>
    rw [List.replicate_succ', List.replicate_succ', ← List.append_assoc, ← List.append_assoc]
    exact ih.append rfl (.single .closeParen)

/-- **A completed text.** What is made of viable tokens is the beginning of a condition. -/
theorem Lexes.exists_parse_completed {before : List Char} {ts : List Token} (h : Lexes before ts)
    (hviable : Viable ts) :
    ∃ more tree, Condition.parse (String.ofList before ++ more) = .ok tree := by
  -- an operand, if one is due, behind a blank
  obtain ⟨operand, hoperand⟩ : ∃ operand, Lexes (before ++ operand)
      (ts ++ if Token.operandDue ts then [.identifier "x"] else []) := by
    cases hdue : Token.operandDue ts with
    | false => exact ⟨[], by simpa using h⟩
    | true =>
      have hname : Token.IsName ['x'] := ⟨'x', [], rfl, rfl, nofun⟩
      have hblank : Text.IsBlanks [' '] := by simp [Text.IsBlanks, isBlank]
      have hspells : Token.Spells (.identifier "x") ['x'] := .identifier hname (by decide)
      exact ⟨[' ', 'x'], h.append rfl ((Lexes.single hspells).blanks_append hblank)⟩
  -- then closing parentheses
  obtain ⟨state, hstate⟩ := viable_iff.mp hviable
  obtain ⟨p, hyield⟩ := hstate.exists_sentence_completion
  have hclosed := hoperand.append_closing (Token.opened ts - Token.closed ts)
  rw [List.append_assoc ts, show _ ++ _ = Token.completion ts from rfl, ← hyield] at hclosed
  let more := operand ++ List.replicate (Token.opened ts - Token.closed ts) ')'
  have htext : (String.ofList before ++ String.ofList more).toList =
      before ++ operand ++ List.replicate (Token.opened ts - Token.closed ts) ')' := by
    rw [String.toList_append, String.toList_ofList, String.toList_ofList, List.append_assoc]
  obtain ⟨tree, hparse⟩ := Condition.exists_parse_of_lexes (htext ▸ hclosed)
  exact ⟨String.ofList more, tree, hparse⟩

/-! ### The first error -/

namespace Condition

/-- **The first error.** Let a condition that is not blank have no tree. Its error has no length and
cuts the text in two. What stands before it can be completed to a condition. It is made of tokens,
and the table of what may stand next says what the grammar allows behind them; nothing that it
allows starts what stands behind the error, and where it allows the end, something stands there. If
as many parentheses are closed as opened outside strings, the reason is that the condition ends too
early exactly if the error is at its end. -/
theorem parse_error_first (text : String) (e : SyntaxError) (h : parse text = .error e)
    (hvisible : ∃ c ∈ text.toList, isWhiteSpace c = false) :
    ∃ before rest ts, text.toList = before ++ rest ∧
      e.span = ⟨Text.byteLength before, Text.byteLength before⟩ ∧
      (∃ more tree, parse (String.ofList before ++ more) = .ok tree) ∧
      Lexes before ts ∧
      (∀ t, (Viable (ts ++ [t]) ↔ Token.mayFollow ts t = true) ∧
        (Token.mayFollow ts t = true → ¬ t.StartsAt rest)) ∧
      ((∃ p : Sentence, p.yield = ts) ↔ Token.mayEnd ts = true) ∧
        (Token.mayEnd ts = true → rest ≠ []) ∧
      ((countParens none text.toList).1 = (countParens none text.toList).2 →
        (e.reason.message = "unexpected end of condition" ↔
          Text.byteLength before = Text.byteLength text.toList)) := by
  obtain ⟨c, hc, hspace⟩ := hvisible
  -- the error of a blank text is excluded, every other one is that of a run
  rcases parse_eq_error_iff.mp h with ⟨hblank, -⟩ | ⟨-, failure, hrun, rfl⟩
  · rw [hblank c hc] at hspace
    cases hspace
  · obtain ⟨before, rest, ts, htext, hposition, hlexes, hviable, hblocked⟩ :=
      exists_blocked Reaches.nil
        (show runFrom (.due [] .fresh) 0 text.toList = .error failure from hrun)
    rw [Nat.zero_add] at hposition
    rw [List.nil_append] at hviable hblocked
    refine ⟨before, rest, ts, htext, ?_, hlexes.exists_parse_completed hviable, hlexes, ?_, ?_,
      hblocked.ends, ?_⟩
    · rw [hposition]
    · exact fun t => ⟨hviable.concat_iff t, hblocked.starts t⟩
    · exact hviable.exists_sentence_iff
    · -- with as many parentheses on both sides, the place alone decides on the reason
      intro hcount
      have hlength : Text.byteLength text.toList =
          Text.byteLength before + Text.byteLength rest := by
        rw [htext, Text.byteLength_append]
      have hreason := (reasonFor_iff text.toList failure).2.2 hcount
      rw [← SyntaxReason.message_injective.eq_iff, hposition] at hreason
      refine hreason.trans ?_
      omega

/-- The theorem at a condition with a character of two bytes, in which an operator stands behind
another one. The sign that begins the second is a negation, so the error is behind that sign: an
equals sign is no operand. -/
theorem parse_error_first_sign :
    parse "('é' <!==2)" = .error ⟨.expected .operandAfterBang, ⟨8, 8⟩⟩ ∧
    ∃ before rest ts, "('é' <!==2)".toList = before ++ rest ∧ Text.byteLength before = 8 ∧
      (∃ more tree, parse (String.ofList before ++ more) = .ok tree) ∧ Lexes before ts ∧
      ∀ t, Token.mayFollow ts t = true → ¬ t.StartsAt rest := by
  have hparse : parse "('é' <!==2)" = .error ⟨.expected .operandAfterBang, ⟨8, 8⟩⟩ := by
    decide +kernel
  obtain ⟨before, rest, ts, htext, hspan, hcompleted, hlexes, hstarts, -⟩ :=
    parse_error_first "('é' <!==2)" _ hparse ⟨'(', by decide, by decide⟩
  exact ⟨hparse, before, rest, ts, htext, (Span.mk.inj hspan).1.symm, hcompleted, hlexes,
    fun t => (hstarts t).2⟩

end Condition

end CondRegions
