import CondRegions.Proofs.Condition.Lexing
import CondRegions.Proofs.Text.Search

/-!
# Tokens at a seam

Where two texts are put together, a token can grow across the seam, and where a text is cut, a token
can lose its end. Most characters that are no part of a name stand in symbols and strings only
(`Token.Spells.symbol_or_string`). So neither happens at a *delimiter*, that is, at a blank or a
closing parenthesis: apart from the parenthesis itself, only strings have such characters in them
(`Token.Spells.delimiter_cases`), and a string ends at its closing quote whatever follows.

* `Token.Spells.lexeme` — a spelling that makes up the whole text is a lexeme;
* `Token.Lexeme.cut` — a lexeme stays one if the text is cut behind it;
* `Token.Lexeme.before_delimiter` — and if something is put behind the text that begins with a
  delimiter;
* `Lexes.append` — so the tokens of two texts, the second of which begins with a delimiter, are the
  tokens of the two put together.

A negation sign is the one token that is often put before others directly. It grows only with an
equals sign (`Token.Lexeme.bang`), and of the tokens only operators begin with one
(`Token.Spells.operator_of_equals`).
-/

namespace CondRegions

/-- A text in which no character is of a kind does not have one of that kind. -/
theorem Text.not_mem_of_all {kind : Char → Bool} {c : Char} (hc : kind c = true) {cs : List Char}
    (h : cs.all (fun d => !kind d) = true) : c ∉ cs := by
  intro hmem
  have hnot := List.all_eq_true.mp h c hmem
  rw [hc] at hnot
  cases hnot

namespace Token

/-! ### Symbols and strings -/

/-- Whether a token is an operator, a parenthesis or a negation sign. -/
def isSymbol : Token → Bool
  | .bang | .openParen | .closeParen | .operator _ => true
  | .literal _ | .identifier _ => false

/-- What a string looks like: a quote, what stands between, and the same quote. -/
def IsString (cs : List Char) : Prop :=
  ∃ quote body chars, (quote = '"' ∨ quote = '\'') ∧ Quoted quote body chars ∧
    cs = quote :: body ++ [quote]

/-- A character that stands neither in names nor in numerals stands in symbols and strings only. -/
theorem Spells.symbol_or_string {t : Token} {cs : List Char} (h : Spells t cs) {c : Char}
    (hmem : c ∈ cs) (hpart : isNamePart c = false) (hrest : c ≠ '-' ∧ c ≠ '.') :
    t.isSymbol = true ∨ IsString cs := by
  -- names, digits and signs have none of the character, so it is the other tokens that are left
  have hname : ¬ IsName cs := by
    intro hcs
    rw [hcs.all_isNamePart c hmem] at hpart
    cases hpart
  have hdigits : ∀ {ds : List Char}, IsDigits ds → c ∉ ds := by
    intro ds hds hdigit
    rw [isNamePart_of_isDigit (hds.2 c hdigit)] at hpart
    cases hpart
  have hminus : ∀ negative, c ∉ minus negative := by
    intro negative hsign
    cases negative with
    | true => exact hrest.1 (List.mem_singleton.mp hsign)
    | false => cases hsign
  cases h with
  | bang | openParen | closeParen | operator => exact .inl rfl
  | string hquote hbody => exact .inr ⟨_, _, _, hquote, hbody, rfl⟩
  | integer negative hwhole =>
    exact absurd hmem (List.not_mem_append (hminus negative) (hdigits hwhole))
  | decimal negative hwhole hfraction =>
    have hpoint : c ∉ '.' :: _ := List.not_mem_cons_of_ne_of_not_mem hrest.2 (hdigits hfraction)
    exact absurd hmem (List.not_mem_append (List.not_mem_append (hminus negative) (hdigits hwhole))
      hpoint)
  | keyword hkeyword => exact absurd (isName_of_mem_keywords hkeyword) hname
  | identifier hcs => exact absurd hcs hname

/-! ### Delimiters -/

/-- **Delimiters.** The characters that end every token but a string. -/
def isDelimiter (c : Char) : Bool :=
  isBlank c || c == ')'

theorem isDelimiter_iff {c : Char} : isDelimiter c = true ↔ c = ' ' ∨ c = '\t' ∨ c = ')' := by
  simp only [isDelimiter, isBlank, Bool.or_eq_true, beq_iff_eq, or_assoc]

theorem isNamePart_of_isDelimiter {c : Char} (h : isDelimiter c = true) : isNamePart c = false := by
  rcases isDelimiter_iff.mp h with rfl | rfl | rfl <;> decide

/-- A spelling with a delimiter in it is a closing parenthesis or a string. -/
theorem Spells.delimiter_cases {t : Token} {cs : List Char} (h : Spells t cs) {d : Char}
    (hd : isDelimiter d = true) (hmem : d ∈ cs) : cs = [')'] ∨ IsString cs := by
  have hrest : d ≠ '-' ∧ d ≠ '.' := by
    rcases isDelimiter_iff.mp hd with rfl | rfl | rfl <;> decide
  -- of the symbols, only the parenthesis is a delimiter
  refine (h.symbol_or_string hmem (isNamePart_of_isDelimiter hd) hrest).imp_left fun hsymbol => ?_
  cases h with
  | closeParen => rfl
  | bang | openParen => exact absurd hmem (Text.not_mem_of_all hd (by decide))
  | operator op => exact absurd hmem (Text.not_mem_of_all hd (by cases op <;> decide))
  | integer | decimal | string | keyword | identifier => cases hsymbol

theorem Spells.ne_nil {t : Token} {cs : List Char} (h : Spells t cs) : cs ≠ [] := by
  obtain ⟨c, hc, -⟩ := h.exists_not_isWhiteSpace
  exact List.ne_nil_of_mem hc

/-! ### Lexemes -/

/-- **A spelling alone.** -/
theorem Spells.lexeme {t : Token} {cs : List Char} (h : Spells t cs) : Lexeme t cs [] := by
  -- nothing follows, so nothing longer fits
  refine ⟨h, fun u ds _ hds => ?_, fun _ => rfl⟩
  rw [List.append_nil] at hds
  exact hds.length_le

namespace Lexeme

variable {t : Token} {cs rest : List Char}

/-- What the scanner takes from a text is a lexeme. -/
theorem of_scan? (h : scan? (cs ++ rest) = some (t, rest)) : Lexeme t cs rest := by
  obtain ⟨ds, hds, hlexeme⟩ := scan?_eq_some_iff.mp h
  rwa [List.append_cancel_right hds]

/-- A parenthesis is a lexeme, whatever follows. -/
theorem openParen (rest : List Char) : Lexeme .openParen ['('] rest :=
  .of_scan? rfl

/-- **A lexeme in a text that is cut** somewhere behind it. -/
theorem cut {more : List Char} (h : Lexeme t cs (rest ++ more)) : Lexeme t cs rest := by
  refine ⟨h.spells, fun u ds hu hds => ?_, fun ht => ?_⟩
  · -- what fits into the text that is left fits into the whole
    refine h.longest u ds hu (hds.trans ?_)
    rw [← List.append_assoc]
    exact List.prefix_append _ _
  · -- what stands right behind a numeral is the same, or it is the end of the text
    cases rest with
    | nil => rfl
    | cons c rest => exact h.apart ht

/-- A lexeme that begins with a quote is a string. -/
theorem string_of_quote (h : Lexeme t cs rest) {quote : Char} (hquote : quote = '"' ∨ quote = '\'')
    {tail : List Char} (hcs : cs ++ rest = quote :: tail) :
    ∃ body chars, Quoted quote body chars ∧ cs = quote :: body ++ [quote] := by
  have hscan := h.scan?_eq
  rw [hcs, scan?_quote hquote] at hscan
  obtain ⟨⟨chars, rest'⟩, hstring, heq⟩ := Option.map_eq_some_iff.mp hscan
  obtain ⟨-, rfl⟩ := Prod.mk.inj heq
  -- what the scanner has read is a quoted text, and the lexeme is what it has read
  obtain ⟨body, rfl, hbody⟩ := quoted_of_scanString? hstring
  have hcut : cs ++ rest' = quote :: body ++ [quote] ++ rest' := by
    rw [hcs, List.append_assoc, List.singleton_append, List.cons_append]
  exact ⟨body, chars, hbody, List.append_cancel_right hcut⟩

/-- Where a string stands, it is the lexeme, whatever follows: its first closing quote ends it. -/
theorem eq_of_string (h : Lexeme t cs rest) {quote : Char} (hquote : quote = '"' ∨ quote = '\'')
    {body chars more : List Char} (hbody : Quoted quote body chars)
    (hstart : quote :: body ++ [quote] <+: cs ++ rest ++ more) : cs = quote :: body ++ [quote] := by
  obtain ⟨behind, hbehind⟩ := hstart
  -- the lexeme begins with the quote too
  obtain ⟨tail, htail⟩ : ∃ tail, cs ++ rest = quote :: tail := by
    obtain ⟨c, cs', rfl⟩ := List.exists_cons_of_ne_nil h.spells.ne_nil
    obtain ⟨rfl, -⟩ := List.cons.inj hbehind
    exact ⟨cs' ++ rest, rfl⟩
  obtain ⟨body', chars', hbody', rfl⟩ := h.string_of_quote hquote htail
  -- both strings are read at the same place, so the same is left
  have hscan := scan?_string hquote hbody' (rest ++ more)
  rw [← List.append_assoc, ← hbehind, scan?_string hquote hbody] at hscan
  obtain ⟨-, rfl⟩ := Prod.mk.inj (Option.some.inj hscan)
  rw [List.append_assoc (quote :: body' ++ [quote])] at hbehind
  exact (List.append_cancel_right hbehind).symm

/-- **A delimiter behind a lexeme**, with anything between the two, leaves it a lexeme. -/
theorem before_delimiter (h : Lexeme t cs rest) {d : Char} (hd : isDelimiter d = true)
    (more : List Char) : Lexeme t cs (rest ++ d :: more) := by
  refine ⟨h.spells, fun u ds hu hds => ?_, fun ht => ?_⟩
  · rw [← List.append_assoc] at hds
    rcases Text.prefix_or_mem hds with hin | hmem
    · exact h.longest u ds hu hin
    · -- a longer spelling takes the delimiter in, so it is a string
      rcases hu.delimiter_cases hd hmem with rfl | ⟨quote, body, chars, hquote, hbody, rfl⟩
      · exact List.length_pos_iff.mpr h.spells.ne_nil
      · rw [← h.eq_of_string hquote hbody hds]
  · -- the delimiter is no part of a name
    cases rest with
    | nil => exact isNamePart_of_isDelimiter hd
    | cons c rest => exact h.apart ht

end Lexeme

/-! ### Negation signs -/

/-- Only operators begin with an equals sign. -/
theorem Spells.operator_of_equals {t : Token} {cs : List Char} (h : Spells t ('=' :: cs)) :
    ∃ op, t = .operator op := by
  rcases h.symbol_or_string List.mem_cons_self (by decide) (by decide) with
    hsymbol | ⟨quote, body, chars, hquote, -, heq⟩
  · -- of the symbols, only operators have an equals sign in front
    generalize hds : '=' :: cs = ds at h
    cases h with
    | operator op => exact ⟨op, rfl⟩
    | bang | openParen | closeParen => exact absurd (List.cons.inj hds).1 (by decide)
    | integer | decimal | string | keyword | identifier => cases hsymbol
  · -- a string begins with its quote
    obtain ⟨rfl, -⟩ := List.cons.inj heq
    exact absurd hquote (by decide)

/-- A negation sign is one unless an equals sign follows. -/
theorem Lexeme.bang {rest : List Char} (h : ∀ more, rest ≠ '=' :: more) : Lexeme .bang ['!'] rest :=
  .of_scan? (scan?_of_scanSymbol? (scanSymbol?.eq_13 rest (fun _ => h _) (fun _ => h _)))

end Token

/-! ### Token sequences -/

namespace Lexes

variable {cs more : List Char} {ts us : List Token}

/-- One token that makes up the text. -/
theorem single {t : Token} (h : Token.Spells t cs) : Lexes cs [t] := by
  have hlexes := Lexes.token Text.IsBlanks.nil h.lexeme (.done .nil)
  rwa [List.nil_append, List.append_nil] at hlexes

/-- Blanks in front of a text. -/
theorem blanks_append {blanks : List Char} (hblanks : Text.IsBlanks blanks) (h : Lexes cs ts) :
    Lexes (blanks ++ cs) ts := by
  have hjoin : ∀ {others : List Char}, Text.IsBlanks others → Text.IsBlanks (blanks ++ others) := by
    intro others hothers c hc
    exact (List.mem_append.mp hc).elim (hblanks c) (hothers c)
  -- the blanks join those before the first token, or before the end
  cases h with
  | done hothers => exact .done (hjoin hothers)
  | token hothers hlexeme later =>
    rw [← List.append_assoc, ← List.append_assoc]
    exact .token (hjoin hothers) hlexeme later

/-- **Two texts put together**, the second of which begins with a delimiter. -/
theorem append (h : Lexes cs ts) {d : Char} (hd : Token.isDelimiter d = true)
    (hmore : Lexes (d :: more) us) : Lexes (cs ++ d :: more) (ts ++ us) := by
  -- along the tokens of the first text, each of which stays a lexeme
  induction h with
  | done hblanks => exact hmore.blanks_append hblanks
  | token hblanks hlexeme later ih =>
    rw [List.append_assoc _ _ (d :: more)]
    exact .token hblanks (hlexeme.before_delimiter hd more) ih

end Lexes

end CondRegions
