import CondRegions.Proofs.Condition.Parsing

/-!
# The places and reasons of syntax errors

A run fails at a token that cannot stand where it does, or where the reading of tokens stopped.
Tokens stand in the text, so the place of a failure is one where the text can be cut
(`Parser.isBoundary_of_run`). The one place that is not the start of a token is behind the first
character of `!=` and `!==`.

So a condition that is not blank and does not parse has its error at a single place, which lies in
it (`Condition.place_of_parse`).

The reason given depends on the numbers of parentheses and then on the place
(`Parser.reasonFor_iff`). Reasons are told apart by their wording
(`SyntaxReason.message_injective`).
-/

namespace CondRegions

namespace Parser

/-- **The place of a refused token**: its start, or behind its negation sign. -/
theorem position_of_step {state : State} {lexeme : Spanned Token} {failure : Failure}
    (h : step state lexeme = .error failure) :
    failure.position = lexeme.span.start ∨
      failure.position = lexeme.span.start + 1 ∧
        (lexeme.value = .operator .ne ∨ lexeme.value = .operator .strictNe) := by
  obtain ⟨t, span⟩ := lexeme
  -- the two states refuse different tokens; only where an operand is due can a sign be split off
  cases state with
  | due outer group =>
    cases t with
    | bang | openParen | literal | identifier => cases h
    | closeParen =>
      obtain rfl := Except.error.inj h
      exact .inl rfl
    | operator op =>
      cases op with
      | ne =>
        obtain rfl := Except.error.inj h
        exact .inr ⟨rfl, .inl rfl⟩
      | strictNe =>
        obtain rfl := Except.error.inj h
        exact .inr ⟨rfl, .inr rfl⟩
      | _ =>
        obtain rfl := Except.error.inj h
        exact .inl rfl
  | read outer chain e =>
    cases t with
    | operator op => cases outer <;> cases h
    | closeParen =>
      cases outer with
      | nil =>
        obtain rfl := Except.error.inj h
        exact .inl rfl
      | cons group outer => cases h
    | bang | openParen | literal | identifier =>
      cases outer <;>
      · obtain rfl := Except.error.inj h
        exact .inl rfl

/-- A token that is refused is one of those that are read. -/
theorem exists_step_of_foldlM {lexemes : List (Spanned Token)} {state : State} {failure : Failure}
    (h : lexemes.foldlM step state = .error failure) :
    ∃ lexeme ∈ lexemes, ∃ state', step state' lexeme = .error failure := by
  -- along the tokens, up to the first one that is refused
  induction lexemes generalizing state with
  | nil => cases h
  | cons lexeme lexemes ih =>
    rw [List.foldlM_cons] at h
    cases hstep : step state lexeme with
    | error failure' =>
      rw [hstep] at h
      obtain rfl := Except.error.inj h
      exact ⟨lexeme, List.mem_cons_self, state, hstep⟩
    | ok next =>
      rw [hstep] at h
      obtain ⟨lexeme', hmem, state', hstep'⟩ := ih h
      exact ⟨lexeme', List.mem_cons_of_mem _ hmem, state', hstep'⟩

/-- Behind the negation sign of `!=` and `!==` the text can be cut. -/
theorem isBoundary_behind_bang {text : List Char} {lexeme : Spanned Token}
    (h : Lexed.Stands text lexeme)
    (hvalue : lexeme.value = .operator .ne ∨ lexeme.value = .operator .strictNe) :
    Text.IsBoundary text (lexeme.span.start + 1) := by
  obtain ⟨before, cs, after, rfl, hlexeme, hspan⟩ := h
  -- the sign takes one byte
  obtain ⟨more, rfl⟩ : ∃ more, cs = '!' :: more := by
    have hspells := hlexeme.spells
    rcases hvalue with hvalue | hvalue <;>
    · rw [hvalue] at hspells
      cases hspells
      exact ⟨_, rfl⟩
  rw [hspan]
  refine ⟨before ++ ['!'], more ++ after, ?_, ?_⟩
  · simp only [List.append_assoc, List.cons_append, List.nil_append]
  · rw [Text.byteLength_append]
    rfl

/-- **The place of a failure** is one where the text can be cut. -/
theorem isBoundary_of_run {text : List Char} {failure : Failure}
    (h : run (Lexed.ofText text) = .error failure) : Text.IsBoundary text failure.position := by
  unfold run at h
  cases hrun : (Lexed.ofText text).tokens.foldlM step (.due [] .fresh) with
  | error failure' =>
    rw [hrun] at h
    obtain rfl := Except.error.inj h
    obtain ⟨lexeme, hmem, state, hstep⟩ := exists_step_of_foldlM hrun
    have hstands := Lexed.stands_ofText hmem
    -- a token stands in the text, so its start is a boundary
    rcases position_of_step hstep with hposition | ⟨hposition, hvalue⟩
    · rw [hposition]
      obtain ⟨before, cs, after, htext, -, hspan⟩ := hstands
      exact ⟨before, cs ++ after, by rw [htext, List.append_assoc], by rw [hspan]⟩
    · rw [hposition]
      exact isBoundary_behind_bang hstands hvalue
  | ok state =>
    -- all tokens are read, so the failure is where the reading stopped
    rw [hrun] at h
    change finish (Lexed.ofText text) state = .error failure at h
    unfold finish at h
    split at h
    · cases h
    · obtain rfl := Except.error.inj h
      exact Lexed.isBoundary_stop text

end Parser

/-- **The place of a syntax error.** If the condition is not blank, the error has no length, and its
place is one where the condition can be cut. -/
theorem Condition.place_of_parse {text : String} {e : SyntaxError} (h : parse text = .error e)
    (hvisible : ∃ c ∈ text.toList, isWhiteSpace c = false) :
    e.span.stop = e.span.start ∧ Text.IsBoundary text.toList e.span.start := by
  obtain ⟨c, hc, hspace⟩ := hvisible
  rcases parse_eq_error_iff.mp h with ⟨hblank, -⟩ | ⟨-, failure, hrun, rfl⟩
  · rw [hblank c hc] at hspace
    cases hspace
  · exact ⟨rfl, Parser.isBoundary_of_run hrun⟩

/-! ### Reasons -/

/-- **Different reasons** are worded differently. -/
theorem SyntaxReason.message_injective : Function.Injective SyntaxReason.message := by
  -- there are few reasons, so their wordings are compared one by one
  let all : List SyntaxReason :=
    [.empty, .missingClose, .unexpectedClose, .unexpectedEnd, .expected .operand,
      .expected .operandAfterBang, .expected .operatorOrEnd, .expected .operatorInGroup]
  have hall : ∀ reason, reason ∈ all := by
    intro reason
    cases reason with
    | expected what => cases what <;> decide
    | empty | missingClose | unexpectedClose | unexpectedEnd => decide
  have hapart : ∀ reason ∈ all, ∀ other ∈ all, reason.message = other.message → reason = other := by
    decide
  exact fun reason other => hapart reason (hall reason) other (hall other)

/-- **The reason of a failure.** It is about parentheses if the text opens more than it closes, or
closes more than it opens; otherwise it is about the end of the text if the failure is there. -/
theorem Parser.reasonFor_iff (cs : List Char) (failure : Failure) :
    (reasonFor cs failure = .missingClose ↔ (countParens none cs).2 < (countParens none cs).1) ∧
    (reasonFor cs failure = .unexpectedClose ↔ (countParens none cs).1 < (countParens none cs).2) ∧
    ((countParens none cs).1 = (countParens none cs).2 →
      (reasonFor cs failure = .unexpectedEnd ↔ Text.byteLength cs ≤ failure.position)) := by
  unfold reasonFor
  dsimp only
  -- the counts are compared first, so each test excludes the reasons before it
  split
  · next hmissing => exact ⟨iff_of_true rfl hmissing, iff_of_false nofun (by omega), by omega⟩
  split
  · next hmissing hmore => exact ⟨iff_of_false nofun hmissing, iff_of_true rfl hmore, by omega⟩
  split
  · next hmissing hmore hend =>
    exact ⟨iff_of_false nofun hmissing, iff_of_false nofun hmore, fun _ => iff_of_true rfl hend⟩
  · next hmissing hmore hend =>
    exact ⟨iff_of_false nofun hmissing, iff_of_false nofun hmore, fun _ => iff_of_false nofun hend⟩

end CondRegions
