import CondRegions.Proofs.Condition.Lexeme
import CondRegions.Proofs.Text.Blanks
import CondRegions.Proofs.Text.Bytes

/-!
# The tokens of a text

A text consists of tokens if it is cut into their lexemes, with blanks between them and at both ends
(`Lexes`). The reading of a text finds exactly this sequence (`Lexed.lexes_iff`): a text has one
sequence of tokens at most, and has it if the reading comes to the end.

Wherever the reading stops, what it has found stands in the text: every token read is the lexeme at
its span (`Lexed.stands_ofText`), and the place where the reading stops is a boundary
(`Lexed.isBoundary_stop`).
-/

namespace CondRegions

open Token

/-- **Token sequences.** The text consists of the lexemes of the tokens, with blanks before each of
them and behind the last one. -/
inductive Lexes : List Char → List Token → Prop where
  | done {blanks : List Char} (h : Text.IsBlanks blanks) : Lexes blanks []
  | token {blanks cs rest : List Char} {t : Token} {ts : List Token}
      (hblanks : Text.IsBlanks blanks)
      (h : Lexeme t cs rest) (later : Lexes rest ts) : Lexes (blanks ++ cs ++ rest) (t :: ts)

/-! ### Lexemes behind blanks -/

/-- No token begins with a blank. -/
theorem scan?_blank {c : Char} (h : isBlank c = true) (cs : List Char) :
    scan? (c :: cs) = none := by
  rcases (by simpa [isBlank] using h : c = ' ' ∨ c = '\t') with rfl | rfl <;> rfl

/-- The blanks before a lexeme are all blanks that there are. -/
theorem Token.Lexeme.skipBlanks {t : Token} {blanks cs rest : List Char} (h : Lexeme t cs rest)
    (hblanks : Text.IsBlanks blanks) : Text.skipBlanks (blanks ++ cs ++ rest) = cs ++ rest := by
  rw [List.append_assoc, Text.skipBlanks_append hblanks]
  -- a blank at the start would not be read
  have hscan := h.scan?_eq
  cases hcs : cs ++ rest with
  | nil => rfl
  | cons c more =>
    rw [hcs] at hscan
    refine Text.skipBlanks_cons (Bool.eq_false_iff.mpr fun hc => ?_) more
    rw [scan?_blank hc] at hscan
    cases hscan

/-- The name of an identifier is none of those that are literals. -/
theorem Lexes.not_mem_keywords {cs : List Char} {ts : List Token} (h : Lexes cs ts) {name : String}
    (hname : .identifier name ∈ ts) : name ∉ keywords.map Prod.fst := by
  -- only the first token can be new, and an identifier is spelled by a free name
  induction h with
  | done => cases hname
  | token _ hlexeme _ ih =>
    rcases List.mem_cons.mp hname with rfl | hlater
    · cases hlexeme.spells with
      | identifier _ hfree => exact hfree
    · exact ih hlater

namespace Lexed

/-! ### One token of the reading -/

/-- Where no token starts, the reading stops. -/
theorem fromOffset_none {cs : List Char} (h : scan? (Text.skipBlanks cs) = none) (offset : Nat) :
    fromOffset offset cs =
      ⟨[], offset + (Text.byteLength cs - Text.byteLength (Text.skipBlanks cs)),
        (Text.skipBlanks cs).isEmpty⟩ := by
  rw [fromOffset]
  split
  · rfl
  · next heq => rw [h] at heq; cases heq

/-- Where a token starts, it is read, and the reading goes on behind it. -/
theorem fromOffset_some {blanks cs rest : List Char} {t : Token} (hblanks : Text.IsBlanks blanks)
    (h : Lexeme t cs rest) (offset : Nat) :
    let start := offset + Text.byteLength blanks
    let stop := start + Text.byteLength cs
    fromOffset offset (blanks ++ cs ++ rest) =
      { fromOffset stop rest with
        tokens := ⟨t, ⟨start, stop⟩⟩ :: (fromOffset stop rest).tokens } := by
  intro start stop
  have hskip := h.skipBlanks hblanks
  -- places are computed from what is left of the text
  have hstart : offset + (Text.byteLength (blanks ++ cs ++ rest) - Text.byteLength (cs ++ rest)) =
      start := by
    simp only [Text.byteLength_append, start]
    omega
  have hstop : start + (Text.byteLength (cs ++ rest) - Text.byteLength rest) = stop := by
    simp only [Text.byteLength_append, stop]
    omega
  -- the reading skips the blanks, and then reads the lexeme
  rw [fromOffset]
  split
  · next heq =>
    rw [hskip, h.scan?_eq] at heq
    cases heq
  · next t' rest' heq =>
    rw [hskip, h.scan?_eq] at heq
    obtain ⟨rfl, rfl⟩ := Prod.mk.inj (Option.some.inj heq)
    simp only [hskip, hstart, hstop]

/-- **Induction along the reading.** What holds where the reading stops, and is handed on from what
follows a token to the token with the blanks before it, holds of every text. -/
@[elab_as_elim]
theorem reading_induction {motive : List Char → Prop} (cs : List Char)
    (stop : ∀ cs, scan? (Text.skipBlanks cs) = none → motive cs)
    (token : ∀ blanks cs rest t, Text.IsBlanks blanks → Lexeme t cs rest → motive rest →
      motive (blanks ++ cs ++ rest)) : motive cs := by
  -- on the length, since a token may take any number of characters
  induction hn : cs.length using Nat.strongRecOn generalizing cs with
  | ind n ih =>
  subst hn
  cases h : scan? (Text.skipBlanks cs) with
  | none => exact stop cs h
  | some found =>
    obtain ⟨t, rest⟩ := found
    obtain ⟨blanks, hblanks, hcs, -⟩ := Text.skipBlanks_cases cs
    -- a token takes at least one character
    have hshort := length_scan?_lt h
    obtain ⟨ds, hds, hlexeme⟩ := scan?_eq_some_iff.mp h
    have hlength := congrArg List.length hcs
    rw [List.length_append] at hlength
    rw [hcs, hds, ← List.append_assoc]
    exact token blanks ds rest t hblanks hlexeme (ih rest.length (by omega) rest rfl)

/-! ### The reading and the token sequence -/

/-- The reading of a token sequence comes to the end and finds the tokens. -/
theorem fromOffset_of_lexes {cs : List Char} {ts : List Token} (h : Lexes cs ts) (offset : Nat) :
    (fromOffset offset cs).complete = true ∧
      (fromOffset offset cs).tokens.map (·.value) = ts := by
  -- along the tokens; the offset is that of the token
  induction h generalizing offset with
  | done hblanks =>
    have hskip := Text.skipBlanks_blanks hblanks
    rw [fromOffset_none (by rw [hskip]; rfl), hskip]
    exact ⟨rfl, rfl⟩
  | token hblanks hlexeme later ih =>
    obtain ⟨hcomplete, htokens⟩ := ih _
    rw [fromOffset_some hblanks hlexeme]
    exact ⟨hcomplete, by rw [List.map_cons, htokens]⟩

/-- Where the reading comes to the end, the text consists of the tokens found. -/
theorem lexes_of_complete {cs : List Char} {offset : Nat}
    (h : (fromOffset offset cs).complete = true) :
    Lexes cs ((fromOffset offset cs).tokens.map (·.value)) := by
  -- along the reading, which must not have stopped before the end
  induction cs using reading_induction generalizing offset with
  | stop cs hnone =>
    rw [fromOffset_none hnone] at h ⊢
    obtain ⟨blanks, hblanks, hcs, -⟩ := Text.skipBlanks_cases cs
    -- what is left is empty, so there are only blanks
    rw [List.isEmpty_iff.mp h, List.append_nil] at hcs
    rw [hcs]
    exact .done hblanks
  | token blanks cs rest t hblanks hlexeme ih =>
    rw [fromOffset_some hblanks hlexeme] at h ⊢
    exact .token hblanks hlexeme (ih h)

/-- **The reading finds the token sequence.** -/
theorem lexes_iff {cs : List Char} {ts : List Token} :
    Lexes cs ts ↔ (ofText cs).complete = true ∧ (ofText cs).tokens.map (·.value) = ts := by
  constructor
  · exact fun h => fromOffset_of_lexes h 0
  · rintro ⟨hcomplete, rfl⟩
    exact lexes_of_complete hcomplete

/-! ### Places of the reading -/

/-- A token stands in a text: its span is that of its lexeme. -/
def Stands (text : List Char) (l : Spanned Token) : Prop :=
  ∃ before cs after, text = before ++ cs ++ after ∧ Lexeme l.value cs after ∧
    l.span = ⟨Text.byteLength before, Text.byteLength before + Text.byteLength cs⟩

/-- **Every token read stands in the text**, of which `before` has been read already. -/
theorem stands_fromOffset (before cs : List Char) :
    ∀ l ∈ (fromOffset (Text.byteLength before) cs).tokens, Stands (before ++ cs) l := by
  -- what has been read grows from token to token, so it is arbitrary
  induction cs using reading_induction generalizing before with
  | stop cs hnone =>
    rw [fromOffset_none hnone]
    exact nofun
  | token blanks cs rest t hblanks hlexeme ih =>
    rw [fromOffset_some hblanks hlexeme, ← Text.byteLength_append, ← Text.byteLength_append]
    refine List.forall_mem_cons.mpr ⟨?_, ?_⟩
    · refine ⟨before ++ blanks, cs, rest, ?_, hlexeme, ?_⟩
      · simp only [List.append_assoc]
      · simp only [Text.byteLength_append]
    · have hrest := ih (before ++ blanks ++ cs)
      simpa only [List.append_assoc] using hrest

/-- The reading stops where a character starts, or at the end. -/
theorem isBoundary_stop_fromOffset (before cs : List Char) :
    Text.IsBoundary (before ++ cs) (fromOffset (Text.byteLength before) cs).stop := by
  induction cs using reading_induction generalizing before with
  | stop cs hnone =>
    rw [fromOffset_none hnone]
    obtain ⟨blanks, -, hcs, -⟩ := Text.skipBlanks_cases cs
    have hlength := congrArg Text.byteLength hcs
    rw [Text.byteLength_append] at hlength
    -- only blanks have been passed, so the place is behind them
    refine ⟨before ++ blanks, Text.skipBlanks cs, by rw [List.append_assoc, ← hcs], ?_⟩
    rw [Text.byteLength_append]
    show _ = Text.byteLength before + (Text.byteLength cs - Text.byteLength (Text.skipBlanks cs))
    omega
  | token blanks cs rest t hblanks hlexeme ih =>
    have hrest := ih (before ++ blanks ++ cs)
    rw [fromOffset_some hblanks hlexeme, ← Text.byteLength_append, ← Text.byteLength_append]
    simpa only [List.append_assoc] using hrest

theorem stands_ofText {text : List Char} {l : Spanned Token} (h : l ∈ (ofText text).tokens) :
    Stands text l :=
  stands_fromOffset [] text l h

theorem isBoundary_stop (text : List Char) : Text.IsBoundary text (ofText text).stop :=
  isBoundary_stop_fromOffset [] text

end Lexed

end CondRegions
