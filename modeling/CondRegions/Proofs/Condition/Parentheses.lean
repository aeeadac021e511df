import CondRegions.Proofs.Condition.Place
import CondRegions.Proofs.Condition.Seam
import CondRegions.Proofs.Condition.Viable
import Mathlib.Algebra.GroupWithZero.Nat
import Mathlib.Algebra.Group.Prod

/-!
# Counting parentheses

The reason given for a syntax error depends first of all on the number of parentheses, which are
counted by a pass over the text of its own: it knows strings and nothing else of the language. The
pass is right about every condition.

*One character.* The pass is in one of three modes: outside strings, in a string, or behind a
backslash in one (`Parser.Mode`). What it counts is the sum of what the characters count in the
modes in which they are met (`Parser.Mode.count_cons`), so a text can be counted in two parts
(`Parser.Mode.count_append`).

*One token.* The pass comes out of every token as it went in, outside strings, and has counted the
token if it is a parenthesis (`Token.Spells.count`). Between the first and the last character of a
token it is in a string exactly if the token is one, and has counted nothing
(`Token.Spells.count_part`).

*All tokens.* So the pass counts the parentheses among the tokens of a text (`Lexes.count`), and
among the tokens of every beginning of it (`Lexes.exists_count_part`). It is in a string where the
text is in a string token and nowhere else (`Lexes.inString_iff`). The beginnings of a condition are
viable, so none of them closes more than it opens.
-/

namespace CondRegions

namespace Parser

/-! ### The modes of the count -/

/-- **Where the count stands**: outside strings, in a string with the given quote, or behind a
backslash in one. -/
inductive Mode where
  | outside
  | inside (quote : Char)
  | escaped (quote : Char)
deriving DecidableEq, Repr

namespace Mode

/-- The mode behind a character. -/
def next : Mode → Char → Mode
  | .outside, c => if c = '\'' || c = '"' then .inside c else .outside
  | .inside quote, c =>
    if c = '\\' then .escaped quote else if c = quote then .outside else .inside quote
  | .escaped quote, _ => .inside quote

/-- The mode behind a text. -/
def after (mode : Mode) (cs : List Char) : Mode :=
  cs.foldl next mode

/-- What one character counts. -/
def weight (mode : Mode) (c : Char) : Nat × Nat :=
  if mode = .outside then (if c = '(' then 1 else 0, if c = ')' then 1 else 0) else 0

/-- What is counted in a text that is read in the mode. -/
def count : Mode → List Char → Nat × Nat
  | .outside, cs => countParens none cs
  | .inside quote, cs => countParens (some quote) cs
  | .escaped quote, cs => countParens (some quote) cs.tail

theorem next_outside (c : Char) :
    outside.next c = if c = '\'' || c = '"' then .inside c else .outside := rfl

theorem next_inside (quote c : Char) :
    (inside quote).next c =
      if c = '\\' then .escaped quote else if c = quote then .outside else .inside quote := rfl

@[simp] theorem after_nil (mode : Mode) : mode.after [] = mode := rfl

@[simp] theorem after_cons (mode : Mode) (c : Char) (cs : List Char) :
    mode.after (c :: cs) = (mode.next c).after cs := rfl

theorem after_append (mode : Mode) (xs ys : List Char) :
    mode.after (xs ++ ys) = (mode.after xs).after ys :=
  List.foldl_append

@[simp] theorem count_nil (mode : Mode) : mode.count [] = 0 := by
  cases mode <;> rfl

/-- **One character.** -/
theorem count_cons (mode : Mode) (c : Char) (cs : List Char) :
    mode.count (c :: cs) = mode.weight c + (mode.next c).count cs := by
  cases mode with
  | outside =>
    -- outside strings: a parenthesis counts in its own component
    by_cases hopen : c = '('
    · subst hopen
      exact Prod.ext (Nat.add_comm _ _) (Nat.zero_add _).symm
    by_cases hclose : c = ')'
    · subst hclose
      exact Prod.ext (Nat.zero_add _).symm (Nat.add_comm _ _)
    · -- a quote opens a string, and all else counts nothing
      have hweight : weight .outside c = 0 := by
        simp [weight, hopen, hclose]
      have hcount : count .outside (c :: cs) =
          countParens (if c = '\'' || c = '"' then some c else none) cs :=
        countParens.eq_6 c cs hopen hclose
      rw [hweight, zero_add, hcount, next_outside]
      split <;> rfl
  | inside quote =>
    -- in a string nothing counts, and only the mode can change
    have hweight : weight (.inside quote) c = 0 := rfl
    rw [hweight, zero_add]
    by_cases hslash : c = '\\'
    · -- the next character is passed over, if there is one
      subst hslash
      cases cs with
      | nil =>
        refine (countParens.eq_3 quote '\\' [] nofun).trans ?_
        split <;> rfl
      | cons d cs => exact countParens.eq_2 quote d cs
    · have hcount : count (.inside quote) (c :: cs) =
          countParens (if c = quote then none else some quote) cs :=
        countParens.eq_3 quote c cs fun _ _ h _ => hslash h
      rw [hcount, next_inside, if_neg hslash]
      split <;> rfl
  | escaped quote => exact (zero_add (countParens (some quote) cs)).symm

/-- **Two parts of a text.** -/
theorem count_append (mode : Mode) (xs ys : List Char) :
    mode.count (xs ++ ys) = mode.count xs + (mode.after xs).count ys := by
  -- the second part is counted in the mode that the first one leaves
  induction xs generalizing mode with
  | nil => rw [List.nil_append, after_nil, count_nil, zero_add]
  | cons c xs ih => rw [List.cons_append, count_cons, ih, count_cons, after_cons, add_assoc]

/-- The mode is that of a string exactly if a parenthesis there is not counted. -/
theorem count_openParen_eq_zero_iff (mode : Mode) : mode.count ['('] = 0 ↔ mode ≠ .outside := by
  rw [count_cons, count_nil, add_zero]
  cases mode with
  | outside => decide
  | inside | escaped => exact iff_of_true rfl nofun

/-! ### Texts without parentheses and quotes -/

/-- The characters that change the mode outside strings, or count there. -/
def isMark (c : Char) : Bool :=
  c ∈ ['(', ')', '\'', '"']

theorem isMark_iff {c : Char} : isMark c = true ↔ c = '(' ∨ c = ')' ∨ c = '\'' ∨ c = '"' := by
  simp [isMark]

/-- **A text without marks** is passed over. -/
theorem pass {cs : List Char} (h : ∀ c ∈ cs, isMark c = false) :
    outside.after cs = .outside ∧ outside.count cs = 0 := by
  induction cs with
  | nil => exact ⟨rfl, rfl⟩
  | cons c cs ih =>
    obtain ⟨hc, hcs⟩ := List.forall_mem_cons.mp h
    obtain ⟨hopen, hclose, hsingle, hdouble⟩ : c ≠ '(' ∧ c ≠ ')' ∧ c ≠ '\'' ∧ c ≠ '"' := by
      simpa [isMark] using hc
    -- the character neither opens a string nor counts, so the rest is met outside too
    obtain ⟨hafter, hcount⟩ := ih hcs
    have hnext : outside.next c = .outside := by
      simp [next, hsingle, hdouble]
    have hweight : outside.weight c = 0 := by
      simp [weight, hopen, hclose]
    refine ⟨?_, ?_⟩
    · rw [after_cons, hnext, hafter]
    · rw [count_cons, hnext, hweight, hcount, zero_add]

/-- White space has no marks in it. -/
theorem isMark_of_isWhiteSpace {c : Char} (h : isWhiteSpace c = true) : isMark c = false := by
  refine Bool.eq_false_iff.mpr fun hmark => ?_
  rcases isMark_iff.mp hmark with rfl | rfl | rfl | rfl <;> exact absurd h (by decide)

/-- **Blanks**, or some of them, are passed over. -/
theorem pass_blanks {blanks part : List Char} (h : Text.IsBlanks blanks) (hpart : part <+: blanks) :
    outside.after part = .outside ∧ outside.count part = 0 := by
  refine pass fun c hc => isMark_of_isWhiteSpace ?_
  exact isWhiteSpace_of_isBlank (h c (hpart.subset hc))

/-! ### Strings -/

/-- A quote opens a string, and the same quote closes it. -/
theorem pass_quote {quote : Char} (h : quote = '"' ∨ quote = '\'') :
    outside.next quote = .inside quote ∧ outside.weight quote = 0 ∧
    (inside quote).next quote = .outside := by
  rcases h with rfl | rfl <;> decide

/-- **Inside a string** nothing is counted, and nothing ends it. -/
theorem pass_quoted {quote : Char} {body chars part : List Char} (h : Token.Quoted quote body chars)
    (hpart : part <+: body) :
    (inside quote).after part ≠ .outside ∧ (inside quote).count part = 0 := by
  -- on the pieces of the body; the part may end in any of them
  induction h generalizing part with
  | nil =>
    rw [List.prefix_nil.mp hpart]
    exact ⟨nofun, rfl⟩
  | escape c h ih =>
    -- the part ends before the backslash, behind it, or behind the character that it takes along
    rcases List.prefix_cons_iff.mp hpart with rfl | ⟨part, rfl, hbehind⟩
    · exact ⟨nofun, rfl⟩
    rcases List.prefix_cons_iff.mp hbehind with rfl | ⟨part, rfl, hlater⟩
    · refine ⟨nofun, ?_⟩
      rw [count_cons, count_nil]
      rfl
    obtain ⟨hmode, hnone⟩ := ih hlater
    have hcount : (inside quote).count ('\\' :: c :: part) = (inside quote).count part :=
      countParens.eq_2 quote c part
    exact ⟨hmode, hcount.trans hnone⟩
  | @plain c _ _ hne hslash h ih =>
    rcases List.prefix_cons_iff.mp hpart with rfl | ⟨part, rfl, hlater⟩
    · exact ⟨nofun, rfl⟩
    -- the character is no backslash and not the quote, so the string goes on
    have hnext : (inside quote).next c = .inside quote := by
      rw [next_inside, if_neg hslash, if_neg hne]
    have hweight : (inside quote).weight c = 0 := rfl
    rw [after_cons, count_cons, hnext, hweight, zero_add]
    exact ih hlater

/-- The mode is the same at the end of a string as at its start. -/
theorem after_quoted {quote : Char} {body chars : List Char} (h : Token.Quoted quote body chars) :
    (inside quote).after body = .inside quote := by
  induction h with
  | nil => rfl
  | escape c h ih => exact ih
  | plain hne hslash h ih => rw [after_cons, next_inside, if_neg hslash, if_neg hne, ih]

end Mode

end Parser

open CondRegions.Parser

/-! ### Parts of a text -/

/-- **Where a text is cut** that has a spelling behind blanks: in the blanks, in the spelling, or
behind it. -/
theorem Text.cut_cases {blanks cs rest part : List Char} (h : part <+: blanks ++ cs ++ rest) :
    part <+: blanks ∨
      (∃ ds, part = blanks ++ ds ∧ ds <+: cs ∧ ds ≠ [] ∧ ds ≠ cs) ∨
      ∃ more, part = blanks ++ cs ++ more ∧ more <+: rest := by
  have hcut : ∀ {xs ys zs : List Char}, xs <+: ys ++ zs →
      xs <+: ys ∨ ∃ more, xs = ys ++ more ∧ more <+: zs := by
    intro xs ys zs hxs
    -- two beginnings of one text: one of them is a beginning of the other
    refine (List.prefix_or_prefix_of_prefix hxs (List.prefix_append ys zs)).imp_right ?_
    rintro ⟨more, rfl⟩
    exact ⟨more, rfl, (List.prefix_append_right_inj ys).mp hxs⟩
  rcases hcut h with hpart | ⟨more, rfl, hmore⟩
  · rcases hcut hpart with hblanks | ⟨ds, rfl, hds⟩
    · exact .inl hblanks
    -- the two ends of the spelling belong to the blanks and to what follows
    by_cases hnil : ds = []
    · rw [hnil, List.append_nil]
      exact .inl (List.prefix_refl _)
    by_cases hcs : ds = cs
    · exact .inr (.inr ⟨[], by rw [hcs, List.append_nil], List.nil_prefix⟩)
    · exact .inr (.inl ⟨ds, rfl, hds, hnil, hcs⟩)
  · exact .inr (.inr ⟨more, rfl, hmore⟩)

/-! ### One token -/

namespace Token

/-- Whether a token is a string. -/
def isString : Token → Bool
  | .literal (.string _) => true
  | _ => false

/-- The numbers of parentheses that the tokens open and close. -/
def parens (ts : List Token) : Nat × Nat :=
  (opened ts, closed ts)

theorem parens_cons (t : Token) (ts : List Token) : parens (t :: ts) = parens [t] + parens ts :=
  Prod.ext (@List.count_append _ _ _ [t] ts) (@List.count_append _ _ _ [t] ts)

namespace Spells

variable {t : Token} {cs : List Char}

/-- The tokens that look like strings are the strings. -/
theorem isString_iff (h : Spells t cs) : t.isString = true ↔ IsString cs := by
  constructor
  · intro hstring
    cases h with
    | string hquote hbody => exact ⟨_, _, _, hquote, hbody, rfl⟩
    | keyword hmem =>
      -- none of the four names stands for a string
      have hnone : ∀ entry ∈ keywords, (literal entry.2).isString = false := by decide
      rw [hnone _ hmem] at hstring
      cases hstring
    | bang | openParen | closeParen | operator | integer | decimal | identifier => cases hstring
  · rintro ⟨quote, body, chars, hquote, hbody, rfl⟩
    have hscan := h.lexeme.scan?_eq
    rw [scan?_string hquote hbody] at hscan
    obtain ⟨rfl, -⟩ := Prod.mk.inj (Option.some.inj hscan)
    rfl

/-- Parentheses and quotes stand in parentheses and strings only. -/
theorem isMark_eq_false (h : Spells t cs) (hstring : t.isString = false) (hopen : t ≠ .openParen)
    (hclose : t ≠ .closeParen) : ∀ c ∈ cs, Mode.isMark c = false := by
  intro c hc
  refine Bool.eq_false_iff.mpr fun hmark => ?_
  -- a mark stands in no name and in no numeral, so the token is a symbol or a string
  obtain ⟨hpart, hrest⟩ : isNamePart c = false ∧ c ≠ '-' ∧ c ≠ '.' := by
    rcases Mode.isMark_iff.mp hmark with rfl | rfl | rfl | rfl <;> decide
  rcases h.symbol_or_string hc hpart hrest with hsymbol | hcs
  · cases h with
    | openParen => exact hopen rfl
    | closeParen => exact hclose rfl
    | bang => exact Text.not_mem_of_all hmark (by decide) hc
    | operator op => exact Text.not_mem_of_all hmark (by cases op <;> decide) hc
    | integer | decimal | string | keyword | identifier => cases hsymbol
  · rw [h.isString_iff.mpr hcs] at hstring
    cases hstring

/-- **One token.** The count comes out of it outside strings, and has counted it if it is a
parenthesis. -/
theorem count (h : Spells t cs) :
    Mode.outside.after cs = .outside ∧ Mode.outside.count cs = parens [t] := by
  -- parentheses count, and every other token counts nothing
  by_cases hopen : t = .openParen
  · subst hopen
    cases h
    exact ⟨rfl, rfl⟩
  by_cases hclose : t = .closeParen
  · subst hclose
    cases h
    exact ⟨rfl, rfl⟩
  have hnone : parens [t] = 0 := by
    simp [parens, opened, closed, hopen, hclose]
  rw [hnone]
  cases hstring : t.isString with
  | false => exact Mode.pass (h.isMark_eq_false hstring hopen hclose)
  | true =>
    obtain ⟨quote, body, chars, hquote, hbody, rfl⟩ := h.isString_iff.mp hstring
    -- the first quote opens the string, the last one closes it, and nothing is counted between them
    obtain ⟨hstart, hweight, hend⟩ := Mode.pass_quote hquote
    have hinside := (Mode.pass_quoted hbody (List.prefix_refl body)).2
    have hweight' : (Mode.inside quote).weight quote = 0 := rfl
    rw [List.cons_append, Mode.after_cons, Mode.count_cons, hstart, hweight, Mode.after_append,
      Mode.count_append, Mode.after_quoted hbody, hinside, Mode.after_cons, Mode.count_cons, hend,
      hweight']
    exact ⟨rfl, rfl⟩

/-- **A part of a token.** Behind some characters of it, but not all, the count is in a string
exactly if the token is one, and has counted nothing. -/
theorem count_part (h : Spells t cs) {ds : List Char} (hds : ds <+: cs) (hnil : ds ≠ [])
    (hne : ds ≠ cs) :
    (Mode.outside.after ds ≠ .outside ↔ t.isString = true) ∧ Mode.outside.count ds = 0 := by
  cases hstring : t.isString with
  | true =>
    obtain ⟨quote, body, chars, hquote, hbody, rfl⟩ := h.isString_iff.mp hstring
    obtain ⟨hstart, hweight, -⟩ := Mode.pass_quote hquote
    -- what is left of the part lies between the quotes
    obtain ⟨part, rfl, hpart⟩ := (List.prefix_cons_iff.mp hds).resolve_left hnil
    have hinside : part <+: body := by
      rcases List.prefix_concat_iff.mp hpart with rfl | hbody
      · exact absurd rfl hne
      · exact hbody
    obtain ⟨hmode, hcount⟩ := Mode.pass_quoted hbody hinside
    rw [Mode.after_cons, Mode.count_cons, hstart, hweight, hcount]
    exact ⟨iff_of_true hmode rfl, rfl⟩
  | false =>
    -- a parenthesis has one character only
    have hsingle : ∀ c, cs ≠ [c] := by
      rintro c rfl
      rcases List.prefix_cons_iff.mp hds with rfl | ⟨part, rfl, hpart⟩
      · exact hnil rfl
      · exact hne (by rw [List.prefix_nil.mp hpart])
    have hopen : t ≠ .openParen := by
      rintro rfl
      cases h
      exact hsingle '(' rfl
    have hclose : t ≠ .closeParen := by
      rintro rfl
      cases h
      exact hsingle ')' rfl
    -- so the token is no parenthesis, and there is no mark in any part of it
    obtain ⟨hmode, hcount⟩ :=
      Mode.pass fun c hc => h.isMark_eq_false hstring hopen hclose c (hds.subset hc)
    exact ⟨by simp [hmode], hcount⟩

end Spells

end Token

/-! ### All tokens -/

namespace Lexes

variable {cs part : List Char} {ts : List Token}

/-- **A token with blanks before it** is counted apart from what follows. -/
theorem pass_token {t : Token} {blanks more : List Char} (hblanks : Text.IsBlanks blanks)
    (h : Token.Spells t cs) :
    Mode.outside.after (blanks ++ cs ++ more) = Mode.outside.after more ∧
      Mode.outside.count (blanks ++ cs ++ more) = Token.parens [t] + Mode.outside.count more := by
  obtain ⟨hmode, hnone⟩ := Mode.pass_blanks hblanks (List.prefix_refl _)
  obtain ⟨hmode', hcount⟩ := h.count
  rw [List.append_assoc, Mode.after_append, Mode.count_append, hmode, hnone, Mode.after_append,
    Mode.count_append, hmode', hcount, zero_add]
  exact ⟨rfl, rfl⟩

/-- **All tokens.** What is counted are the parentheses among them. -/
theorem count (h : Lexes cs ts) : Mode.outside.count cs = Token.parens ts := by
  -- each token is counted apart from the rest, so the counts add up
  induction h with
  | done hblanks => exact (Mode.pass_blanks hblanks (List.prefix_refl _)).2
  | @token _ _ _ t ts hblanks hlexeme _ ih =>
    rw [(pass_token hblanks hlexeme.spells).2, ih, Token.parens_cons t ts]

/-- **The first tokens.** What is counted in a beginning of the text are the parentheses among the
first tokens. -/
theorem exists_count_part (h : Lexes cs ts) (hpart : part <+: cs) :
    ∃ us, us <+: ts ∧ Mode.outside.count part = Token.parens us := by
  -- along the tokens; the text is cut in the blanks, in the token, or behind it
  induction h generalizing part with
  | done hblanks =>
    refine ⟨[], List.nil_prefix, ?_⟩
    exact (Mode.pass_blanks hblanks hpart).2
  | @token _ _ _ t ts hblanks hlexeme _ ih =>
    rcases Text.cut_cases hpart with hin | ⟨ds, rfl, hds, hnil, hne⟩ | ⟨more, rfl, hmore⟩
    · refine ⟨[], List.nil_prefix, ?_⟩
      exact (Mode.pass_blanks hblanks hin).2
    · -- a token counts when its last character is met
      obtain ⟨hmode, hnone⟩ := Mode.pass_blanks hblanks (List.prefix_refl _)
      refine ⟨[], List.nil_prefix, ?_⟩
      rw [Mode.count_append, hmode, hnone, (hlexeme.spells.count_part hds hnil hne).2]
      rfl
    · obtain ⟨us, hus, hcount⟩ := ih hmore
      refine ⟨t :: us, List.prefix_cons_inj t |>.mpr hus, ?_⟩
      rw [(pass_token hblanks hlexeme.spells).2, hcount, Token.parens_cons t us]

end Lexes

namespace Lexed

/-- A place lies in a string: behind the first character of a string token, and not behind its last
one. -/
def InString (lexed : Lexed) (place : Nat) : Prop :=
  ∃ l ∈ lexed.tokens, l.value.isString = true ∧ l.span.start < place ∧ place < l.span.stop

/-- No token is read before the place where the reading starts. -/
theorem le_start (offset : Nat) (cs : List Char) :
    ∀ l ∈ (fromOffset offset cs).tokens, offset ≤ l.span.start := by
  -- places only grow along the reading
  induction cs using reading_induction generalizing offset with
  | stop cs hnone =>
    rw [fromOffset_none hnone]
    exact nofun
  | token blanks cs rest t hblanks hlexeme ih =>
    rw [fromOffset_some hblanks hlexeme]
    refine List.forall_mem_cons.mpr ⟨Nat.le_add_right _ _, fun l hl => ?_⟩
    have hlater := ih _ l hl
    omega

theorem InString.lt {offset place : Nat} {cs : List Char}
    (h : (fromOffset offset cs).InString place) : offset < place := by
  obtain ⟨l, hl, -, hstart, -⟩ := h
  exact Nat.lt_of_le_of_lt (le_start offset cs l hl) hstart

/-- A place lies in the first token, if that is a string, or in a later one. -/
theorem inString_token {t : Token} {blanks cs rest : List Char} (hblanks : Text.IsBlanks blanks)
    (h : Token.Lexeme t cs rest) (offset place : Nat) :
    (fromOffset offset (blanks ++ cs ++ rest)).InString place ↔
      (t.isString = true ∧ offset + Text.byteLength blanks < place ∧
        place < offset + Text.byteLength blanks + Text.byteLength cs) ∨
      (fromOffset (offset + Text.byteLength blanks + Text.byteLength cs) rest).InString place := by
  unfold InString
  rw [fromOffset_some hblanks h, List.exists_mem_cons_iff]

end Lexed

/-- **The strings.** The count is in a string exactly where the text is in one. -/
theorem Lexes.inString_iff {cs part : List Char} {ts : List Token} (h : Lexes cs ts)
    (hpart : part <+: cs) (offset : Nat) :
    Mode.outside.after part ≠ .outside ↔
      (Lexed.fromOffset offset cs).InString (offset + Text.byteLength part) := by
  -- the same three cuts, now with the places of the tokens
  induction h generalizing part offset with
  | done hblanks =>
    have hmode := (Mode.pass_blanks hblanks hpart).1
    have htokens := List.map_eq_nil_iff.mp (Lexed.fromOffset_of_lexes (.done hblanks) offset).2
    simp [Lexed.InString, htokens, hmode]
  | @token blanks cs rest t ts hblanks hlexeme _ ih =>
    have hspells := hlexeme.spells
    rw [Lexed.inString_token hblanks hlexeme]
    rcases Text.cut_cases hpart with hin | ⟨ds, rfl, hds, hnil, hne⟩ | ⟨more, rfl, hmore⟩
    · -- before the first token
      have hmode := (Mode.pass_blanks hblanks hin).1
      have hlength : Text.byteLength part ≤ Text.byteLength blanks := by
        obtain ⟨later, rfl⟩ := hin
        rw [Text.byteLength_append]
        exact Nat.le_add_right _ _
      refine iff_of_false (not_not_intro hmode) ?_
      rintro (⟨-, hstart, -⟩ | hlater)
      · omega
      · have hlt := hlater.lt
        omega
    · -- in the first token, so that it depends on the token alone
      have hpos := Text.byteLength_pos hnil
      have hlength : Text.byteLength ds < Text.byteLength cs := by
        obtain ⟨es, rfl⟩ := hds
        have hes : es ≠ [] := by
          rintro rfl
          exact hne (List.append_nil ds).symm
        have hmore := Text.byteLength_pos hes
        rw [Text.byteLength_append]
        omega
      rw [Mode.after_append, (Mode.pass_blanks hblanks (List.prefix_refl _)).1,
        (hspells.count_part hds hnil hne).1, Text.byteLength_append]
      constructor
      · intro hstring
        exact .inl ⟨hstring, by omega, by omega⟩
      · rintro (⟨hstring, -⟩ | hlater)
        · exact hstring
        · have hlt := hlater.lt
          omega
    · -- behind the first token
      have hplace : offset + Text.byteLength (blanks ++ cs ++ more) =
          offset + Text.byteLength blanks + Text.byteLength cs + Text.byteLength more := by
        simp only [Text.byteLength_append]
        omega
      rw [(pass_token hblanks hspells).1, ih hmore, hplace]
      refine (or_iff_right ?_).symm
      rintro ⟨-, -, hstop⟩
      omega

/-! ### The reason of an error -/

namespace Condition

/-- The two reasons that are about parentheses, at an error of any condition. -/
theorem message_of_parse {text : String} {e : SyntaxError} (h : parse text = .error e) :
    (e.reason.message = "missing closing parenthesis" ↔
      (countParens none text.toList).2 < (countParens none text.toList).1) ∧
    (e.reason.message = "unexpected closing parenthesis" ↔
      (countParens none text.toList).1 < (countParens none text.toList).2) := by
  show (e.reason.message = SyntaxReason.message .missingClose ↔ _) ∧
    (e.reason.message = SyntaxReason.message .unexpectedClose ↔ _)
  rw [SyntaxReason.message_injective.eq_iff, SyntaxReason.message_injective.eq_iff]
  rcases parse_eq_error_iff.mp h with ⟨hblank, rfl⟩ | ⟨-, failure, -, rfl⟩
  · -- white space has no parentheses
    have hcount : countParens none text.toList = 0 :=
      (Mode.pass fun c hc => Mode.isMark_of_isWhiteSpace (hblank c hc)).2
    rw [hcount]
    exact ⟨iff_of_false nofun (Nat.lt_irrefl _), iff_of_false nofun (Nat.lt_irrefl _)⟩
  · obtain ⟨hmissing, hmore, -⟩ := reasonFor_iff text.toList failure
    exact ⟨hmissing, hmore⟩

/-- What is counted in a beginning of a condition: no more parentheses are closed than opened, and
in the whole of it as many. -/
theorem parens_of_parse {text : String} {e : Expr Span} (h : parse text = .ok e) :
    (countParens none text.toList).1 = (countParens none text.toList).2 ∧
      ∀ part, part <+: text.toList → (countParens none part).2 ≤ (countParens none part).1 := by
  obtain ⟨p, hlexes, -⟩ := exists_lexes_of_parse h
  obtain ⟨state, hreaches, hread⟩ := p.reaches
  refine ⟨?_, fun part hpart => ?_⟩
  · -- the parser is ready to end, so it has left all groups
    have hcount : countParens none text.toList = Token.parens p.yield := hlexes.count
    have hend := hreaches.follows.isRead_iff.mp hread
    unfold Token.mayEnd at hend
    rw [Bool.and_eq_true, beq_iff_eq] at hend
    rw [hcount]
    exact hend.2.symm
  · -- the tokens so far are those of a condition that goes on
    obtain ⟨us, ⟨more, hmore⟩, hcount⟩ := hlexes.exists_count_part hpart
    have hcount : countParens none part = Token.parens us := hcount
    rw [hcount]
    exact Viable.closed_le_opened ⟨p, more, hmore.symm⟩

/-- **Parentheses.** A condition that opens more parentheses outside strings than it closes has the
error that one is missing, and a condition that closes more has the error that there is one too
many. A condition that closes as many as it opens has neither error. So a condition that has a tree
closes as many as it opens; no beginning of it closes more; and the count takes a place of it to be
in a string, and passes over a parenthesis there, exactly if the place lies in one of its string
tokens. -/
theorem parse_parens (text : String) :
    ((countParens none text.toList).2 < (countParens none text.toList).1 →
      ∃ e, parse text = .error e ∧ e.reason.message = "missing closing parenthesis") ∧
    ((countParens none text.toList).1 < (countParens none text.toList).2 →
      ∃ e, parse text = .error e ∧ e.reason.message = "unexpected closing parenthesis") ∧
    ((countParens none text.toList).1 = (countParens none text.toList).2 →
      (∃ tree, parse text = .ok tree) ∨
      ∃ e, parse text = .error e ∧ e.reason.message ≠ "missing closing parenthesis" ∧
        e.reason.message ≠ "unexpected closing parenthesis") ∧
    ∀ tree, parse text = .ok tree →
      (countParens none text.toList).1 = (countParens none text.toList).2 ∧
      ∀ part, part <+: text.toList →
        (countParens none part).2 ≤ (countParens none part).1 ∧
        (countParens none (part ++ ['(']) = countParens none part ↔
          (Lexed.ofText text.toList).InString (Text.byteLength part)) := by
  -- a tree is there for equal counts only, and the counts decide on the reason of an error
  refine ⟨fun hmissing => ?_, fun hmore => ?_, fun hequal => ?_, fun tree h => ?_⟩
  · cases h : parse text with
    | ok tree => exact absurd (parens_of_parse h).1 (Nat.ne_of_gt hmissing)
    | error e => exact ⟨e, rfl, (message_of_parse h).1.mpr hmissing⟩
  · cases h : parse text with
    | ok tree => exact absurd (parens_of_parse h).1 (Nat.ne_of_lt hmore)
    | error e => exact ⟨e, rfl, (message_of_parse h).2.mpr hmore⟩
  · cases h : parse text with
    | ok tree => exact .inl ⟨tree, rfl⟩
    | error e =>
      have hreason := message_of_parse h
      rw [hequal] at hreason
      refine .inr ⟨e, rfl, fun hmissing => ?_, fun hmore => ?_⟩
      · exact Nat.lt_irrefl _ (hreason.1.mp hmissing)
      · exact Nat.lt_irrefl _ (hreason.2.mp hmore)
  · obtain ⟨hequal, hle⟩ := parens_of_parse h
    refine ⟨hequal, fun part hpart => ⟨hle part hpart, ?_⟩⟩
    obtain ⟨p, hlexes, -⟩ := exists_lexes_of_parse h
    have hplace := hlexes.inString_iff hpart 0
    rw [Nat.zero_add] at hplace
    -- what is counted at the place depends on the mode there
    have hcount : countParens none (part ++ ['(']) =
        countParens none part + (Mode.outside.after part).count ['('] :=
      Mode.count_append .outside part ['(']
    calc countParens none (part ++ ['(']) = countParens none part
        ↔ (Mode.outside.after part).count ['('] = 0 := by rw [hcount, add_eq_left]
      _ ↔ Mode.outside.after part ≠ .outside := Mode.count_openParen_eq_zero_iff _
      _ ↔ (Lexed.ofText text.toList).InString (Text.byteLength part) := hplace

/-- The theorem at three conditions with a parenthesis and an escaped quote in a string. -/
theorem parse_parens_escaped :
    (∃ e, parse "('\\')' == a" = .error e ∧ e.reason.message = "missing closing parenthesis") ∧
    (∃ e, parse "'(\\'' == a)" = .error e ∧ e.reason.message = "unexpected closing parenthesis") ∧
    (∃ tree, parse "('\\')' == a)" = .ok tree) ∧
    (Lexed.ofText "('\\')' == a)".toList).InString 4 := by
  have hparse : parse "('\\')' == a)" = .ok (.binary ⟨1, 11⟩ .eq (.literal ⟨1, 6⟩ (.string "')"))
      (.identifier ⟨10, 11⟩ "a")) := by
    decide +kernel
  refine ⟨(parse_parens _).1 (by decide), (parse_parens _).2.1 (by decide), ⟨_, hparse⟩, ?_⟩
  obtain ⟨-, hparts⟩ := (parse_parens _).2.2.2 _ hparse
  exact (hparts ['(', '\'', '\\', '\''] (by decide)).2.mp (by decide)

end Condition

end CondRegions
