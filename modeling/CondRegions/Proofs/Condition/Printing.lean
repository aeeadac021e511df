import CondRegions.Proofs.Condition.Parsing
import CondRegions.Proofs.Condition.Seam

/-!
# Printed expressions

The text of an expression has parentheses around every operator and quotes around every string. It
reads back as the expression, provided that its literals do.

* *Literals.* A string reads back if every character stands for itself between the quotes or has an
  escape that the language of conditions knows too; others, such as a code point in braces, would
  read as something else. A number reads back if its text is a numeral for it. `Value.IsPrintable`
  asks for this, and no more.
* *Tokens.* The text is cut into the tokens of the expression and no others: what stands behind an
  operand is a blank, a parenthesis or nothing, and what stands behind a negation sign is no equals
  sign (`Expr.lexes_pretty`).
* *Derivations.* The tokens have a derivation at the tightest layer, so they can be an operand of
  any level (`Parser.Derives.operand`), and parentheses make an operand of every chain.

`Condition.parse_pretty` is the round trip.
-/

namespace CondRegions

/-! ### Literals -/

/-- The escapes that the language of conditions knows, as they are written: of the quote, the
backslash, the line feed and the tab. -/
def Text.knownEscapes : List (List Char) :=
  [['\\', '"'], ['\\', '\\'], ['\\', 'n'], ['\\', 't']]

/-- **Literals that read back.** The characters of a string stand for themselves or have an escape
that is known; the text of a number is a numeral for it. -/
def Value.IsPrintable : Value → Prop
  | .string s => ∀ c ∈ s.toList, Text.quoteChar c = [c] ∨ Text.quoteChar c ∈ Text.knownEscapes
  | .number n => Token.Spells (.literal (.number n)) n.toText
  | .undefined | .null | .bool _ => True

/-- An escape that is known stands for the character that it was written for. -/
theorem Text.unescape_of_quoteChar {c d : Char} (h : quoteChar c = ['\\', d])
    (hknown : ['\\', d] ∈ knownEscapes) : Token.unescape d = c := by
  have hd : d = '"' ∨ d = '\\' ∨ d = 'n' ∨ d = 't' := by
    simpa [knownEscapes] using hknown
  -- one case for each escape that is written; `h` says which one it was
  unfold quoteChar at h
  split at h
  · rw [← (List.cons.inj (List.cons.inj h).2).1]
    rfl
  · rw [← (List.cons.inj (List.cons.inj h).2).1]
    rfl
  · rw [← (List.cons.inj (List.cons.inj h).2).1]
    rfl
  · -- the escape of a carriage return is not known
    rw [← (List.cons.inj (List.cons.inj h).2).1] at hd
    exact absurd hd (by decide)
  · rw [← (List.cons.inj (List.cons.inj h).2).1]
    rfl
  · rw [← (List.cons.inj (List.cons.inj h).2).1] at hd
    exact absurd hd (by decide)
  · -- all other characters are written as one character, or as more than two
    split_ifs at h <;> simp at h

/-- A character that stands for itself is neither the quote nor the backslash. -/
theorem Text.ne_of_quoteChar {c : Char} (h : quoteChar c = [c]) : c ≠ '"' ∧ c ≠ '\\' := by
  constructor
  · rintro rfl
    exact absurd h (by decide)
  · rintro rfl
    exact absurd h (by decide)

/-- **Quoted characters** denote what was quoted. -/
theorem Text.quoted_flatMap {cs : List Char}
    (h : ∀ c ∈ cs, quoteChar c = [c] ∨ quoteChar c ∈ knownEscapes) :
    Token.Quoted '"' (cs.flatMap quoteChar) cs := by
  -- each character is written as one piece of a quoted text
  induction cs with
  | nil => exact .nil
  | cons c cs ih =>
    obtain ⟨hc, hcs⟩ := List.forall_mem_cons.mp h
    rw [List.flatMap_cons]
    rcases hc with hself | hknown
    · obtain ⟨hquote, hslash⟩ := ne_of_quoteChar hself
      rw [hself]
      exact .plain hquote hslash (ih hcs)
    · -- every escape that is known is a backslash and one character
      obtain ⟨d, hd⟩ : ∃ d, quoteChar c = ['\\', d] := by
        have hshape : ∀ escape ∈ knownEscapes, ∃ d, escape = ['\\', d] := by
          simp [knownEscapes]
        exact hshape _ hknown
      have hescape := Token.Quoted.escape d (ih hcs)
      rw [unescape_of_quoteChar hd (hd ▸ hknown)] at hescape
      rw [hd]
      exact hescape

/-- **The text of a literal** that reads back is a spelling of it. -/
theorem Value.spells_quotedText {v : Value} (h : v.IsPrintable) :
    Token.Spells (.literal v) v.quotedText.toList := by
  have hkeyword : ∀ {name : String}, (name, v) ∈ Token.keywords → v.quotedText = name →
      Token.Spells (.literal v) v.quotedText.toList := by
    rintro name hmem rfl
    exact .keyword hmem
  -- three sorts of literals are names of the grammar, the other two ask for what `h` says
  cases v with
  | undefined => exact hkeyword (by decide) rfl
  | null => exact hkeyword (by decide) rfl
  | bool b => cases b <;> exact hkeyword (by decide) rfl
  | number n =>
    have htext : (Value.number n).quotedText.toList = n.toText := String.toList_ofList
    rw [htext]
    exact h
  | string s =>
    have hspells := Token.Spells.string (.inl rfl) (Text.quoted_flatMap h)
    rw [String.ofList_toList] at hspells
    have htext : (Value.string s).quotedText.toList = Text.quote s.toList := String.toList_ofList
    rw [htext]
    exact hspells

/-! ### Expressions -/

namespace Expr

variable {α β : Type}

/-- The literals of an expression, from the left. -/
def literals : Expr α → List Value
  | .literal _ v => [v]
  | .identifier _ _ => []
  | .not _ e => e.literals
  | .binary _ _ l r => l.literals ++ r.literals

/-- **Expressions that read back**: their literals do. -/
def IsPrintable (e : Expr α) : Prop :=
  ∀ v ∈ e.literals, v.IsPrintable

/-- The text of an expression does not depend on its annotations. -/
theorem pretty_map (f : α → β) (e : Expr α) : (e.map f).pretty = e.pretty := by
  induction e with
  | literal | identifier => rfl
  | not note e ih => rw [Expr.map, Expr.pretty, Expr.pretty, ih]
  | binary note op l r ihl ihr => rw [Expr.map, Expr.pretty, Expr.pretty, ihl, ihr]

theorem pretty_of_erase {e e' : Expr α} (h : e.erase = e'.erase) : e.pretty = e'.pretty := by
  calc e.pretty = e.erase.pretty := (pretty_map _ e).symm
    _ = e'.erase.pretty := by rw [h]
    _ = e'.pretty := pretty_map _ e'

end Expr

namespace Parser.Derives

variable {ts us : List Token} {e e' : Expr Span}

/-- A signed operand is an operand of every level: a chain without operators is one operand of the
next looser level. -/
theorem operand (l : Level) (h : Derives .unary ts e) : Derives l.operand ts e := by
  -- the levels are gone through from the tightest one; none of them adds an operator
  have hrelational : Derives (.chain .relational) ts e := single h
  have hequality : Derives (.chain .equality) ts e := single hrelational
  cases l with
  | relational => exact h
  | equality => exact hrelational
  | and => exact hequality
  | or => exact single hequality

/-- A chain of any level is a condition. -/
theorem sentence {l : Level} (h : Derives (.chain l) ts e) : Derives (.chain .or) ts e := by
  cases l with
  | or => exact h
  | and => exact single h
  | equality => exact single (l := .or) (single h)
  | relational => exact single (l := .or) (single (l := .and) (single h))

/-- **Two operands in parentheses**, with an operator between them, are an operand. -/
theorem grouped (op : Operator) (note : Span) (h : Derives .unary ts e)
    (h' : Derives .unary us e') :
    Derives .unary (.openParen :: (ts ++ .operator op :: us) ++ [.closeParen])
      (.binary note op e e') := by
  -- both sides are operands of the level of the operator, whatever it is
  have hleft : Derives (.chain op.level) ts e := single (h.operand op.level)
  have hjoined := (hleft.binary rfl (h'.operand op.level)).sentence
  -- the parser would note another span, which erasing forgets
  obtain ⟨p, hyield, htree⟩ := hjoined.parens.bare
  exact ⟨p, hyield, htree⟩

end Parser.Derives

open CondRegions.Parser

/-- **The tokens of a printed expression.** They are derived as one operand, and the text does not
begin with an equals sign, so that a negation sign can stand before it. -/
theorem Expr.lexes_pretty {e : Expr Span}
    (hnames : ∀ name ∈ e.names, Token.Spells (.identifier name) name.toList) (h : e.IsPrintable) :
    ∃ ts, Derives .unary ts e ∧ Lexes e.pretty.toList ts ∧
      ∀ more, e.pretty.toList ≠ '=' :: more := by
  -- an operand of one token is no operator, so it does not begin with an equals sign
  have hsingle : ∀ {t : Token} {cs : List Char}, Token.Spells t cs → (∀ op, t ≠ .operator op) →
      Lexes cs [t] ∧ ∀ more, cs ≠ '=' :: more := by
    intro t cs hspells hoperand
    refine ⟨.single hspells, ?_⟩
    rintro more rfl
    obtain ⟨op, hop⟩ := hspells.operator_of_equals
    exact hoperand op hop
  -- on the expression, with the tokens and the first character of its text
  induction e with
  | literal note v =>
    have hspells := Value.spells_quotedText (h v List.mem_cons_self)
    exact ⟨[.literal v], (Derives.literal note v).bare, hsingle hspells nofun⟩
  | identifier note name =>
    have hspells := hnames name List.mem_cons_self
    exact ⟨[.identifier name], (Derives.identifier note name).bare, hsingle hspells nofun⟩
  | not note e ih =>
    obtain ⟨ts, hderives, hlexes, hequals⟩ := ih hnames h
    -- the text behind the sign does not begin with an equals sign, so the sign is read alone
    have htext : (Expr.not note e).pretty.toList = [] ++ ['!'] ++ e.pretty.toList := by
      rw [Expr.pretty, String.toList_append]
      rfl
    refine ⟨.bang :: ts, hderives.not note, ?_, ?_⟩
    · rw [htext]
      exact .token .nil (.bang hequals) hlexes
    · rw [htext]
      exact fun more heq => absurd (List.cons.inj heq).1 (by decide)
  | binary note op l r ihl ihr =>
    obtain ⟨hnamesl, hnamesr⟩ := List.forall_mem_append.mp hnames
    obtain ⟨hl, hr⟩ := List.forall_mem_append.mp h
    obtain ⟨ts, hderivesl, hlexesl, -⟩ := ihl hnamesl hl
    obtain ⟨us, hderivesr, hlexesr, -⟩ := ihr hnamesr hr
    have hblank : Text.IsBlanks [' '] := by simp [Text.IsBlanks, isBlank]
    -- the text is put together from the right; every seam is a blank or the closing parenthesis
    have hright : Lexes (r.pretty.toList ++ [')']) (us ++ [.closeParen]) :=
      hlexesr.append rfl (.single .closeParen)
    have hop : Lexes (op.symbol.toList ++ ' ' :: (r.pretty.toList ++ [')']))
        (.operator op :: (us ++ [.closeParen])) :=
      (Lexes.single (.operator op)).append rfl (hright.blanks_append hblank)
    have hleft : Lexes (l.pretty.toList ++ ' ' ::
        (op.symbol.toList ++ ' ' :: (r.pretty.toList ++ [')'])))
        (ts ++ .operator op :: (us ++ [.closeParen])) :=
      hlexesl.append rfl (hop.blanks_append hblank)
    have htext : (Expr.binary note op l r).pretty.toList =
        [] ++ ['('] ++ (l.pretty.toList ++ ' ' ::
          (op.symbol.toList ++ ' ' :: (r.pretty.toList ++ [')']))) := by
      simp only [Expr.pretty, String.toList_append, List.append_assoc]
      rfl
    refine ⟨_, hderivesl.grouped op note hderivesr, ?_, ?_⟩
    · rw [htext]
      simpa only [List.cons_append, List.append_assoc] using Lexes.token .nil (.openParen _) hleft
    · rw [htext]
      exact fun more heq => absurd (List.cons.inj heq).1 (by decide)

/-! ### The round trip -/

/-- An identifier in a token sequence is spelled by its name. -/
theorem Lexes.spells_of_identifier {cs : List Char} {ts : List Token} (h : Lexes cs ts)
    {name : String}
    (hname : .identifier name ∈ ts) : Token.Spells (.identifier name) name.toList := by
  induction h with
  | done => cases hname
  | token _ hlexeme _ ih =>
    rcases List.mem_cons.mp hname with rfl | hlater
    · have hspells := hlexeme.spells
      generalize ht : Token.identifier name = t at hspells
      -- only the spelling of an identifier gives an identifier, and its text is the name
      cases hspells with
      | identifier hcs hfree =>
        obtain rfl := Token.identifier.inj ht
        rw [String.toList_ofList]
        exact .identifier hcs hfree
      | _ => cases ht
    · exact ih hlater

namespace Condition

/-- The names in the tree of a condition are spelled as they are. -/
theorem spells_of_mem_names {text : String} {e : Expr Span} (h : parse text = .ok e) {name : String}
    (hname : name ∈ e.names) : Token.Spells (.identifier name) name.toList := by
  obtain ⟨p, hlexes, htree⟩ := exists_lexes_of_parse h
  rw [← Expr.names_erase, ← htree] at hname
  exact hlexes.spells_of_identifier (p.mem_yield_of_mem_names hname)

/-- A text whose tokens are derived for an expression parses as it. -/
theorem exists_parse_of_derives {text : String} {ts : List Token} {e : Expr Span}
    (hlexes : Lexes text.toList ts)
    (h : Derives (.chain .or) ts e) : ∃ e', parse text = .ok e' ∧ e'.erase = e.erase := by
  obtain ⟨p, rfl, htree⟩ := h
  obtain ⟨e', hparse⟩ := exists_parse_of_lexes hlexes
  obtain ⟨q, hq, htree'⟩ := exists_lexes_of_parse hparse
  refine ⟨e', hparse, ?_⟩
  -- the text has one derivation only
  rw [← htree', ← htree, eq_of_lexes hq hlexes]

/-- The text of an expression reads back as the expression. -/
theorem exists_parse_of_pretty {text : String} {e : Expr Span} (h : parse text = .ok e)
    (hprintable : e.IsPrintable) : ∃ e', parse e.pretty = .ok e' ∧ e'.erase = e.erase := by
  -- the names come from a text that was read, so they are spelled by themselves
  obtain ⟨ts, hderives, hlexes, -⟩ :=
    Expr.lexes_pretty (fun _ hname => spells_of_mem_names h hname) hprintable
  exact exists_parse_of_derives hlexes (hderives.operand .or).single

/-- **Round trip.** Let the tree of a condition have literals that read back. Its text parses as the
tree, up to spans, and printing what has been parsed gives the same text again. Of the trees with
such literals, no two that differ by more than spans have the same text. -/
theorem parse_pretty (text : String) (e : Expr Span) (h : parse text = .ok e)
    (hprintable : e.IsPrintable) :
    (∃ e', parse e.pretty = .ok e' ∧ e'.erase = e.erase ∧ e'.pretty = e.pretty) ∧
    ∀ other tree, parse other = .ok tree → tree.IsPrintable → tree.pretty = e.pretty →
      tree.erase = e.erase := by
  obtain ⟨e', hparse, herase⟩ := exists_parse_of_pretty h hprintable
  refine ⟨⟨e', hparse, herase, Expr.pretty_of_erase herase⟩, ?_⟩
  intro other tree hother htree hpretty
  -- both trees are what their common text parses as
  obtain ⟨tree', hparse', herase'⟩ := exists_parse_of_pretty hother htree
  rw [hpretty, hparse] at hparse'
  obtain rfl := Except.ok.inj hparse'
  rw [← herase', herase]

/-- The theorem at a negative number behind a negation sign and a string with three kinds of
escapes, in which the other quote stands for itself. -/
theorem parse_pretty_escapes :
    let text := "!-2.5===a||b=='é\"\\n\\\\'"
    let printed := "((!-2.5 === a) || (b == \"é\\\"\\n\\\\\"))"
    ∃ e e', parse text = .ok e ∧ e.IsPrintable ∧ e.pretty = printed ∧ parse printed = .ok e' ∧
      e'.erase = e.erase := by
  intro text printed
  let number := Number.ofDecimal true 25 (-1)
  let e : Expr Span :=
    .binary ⟨0, 23⟩ .or
      (.binary ⟨0, 9⟩ .strictEq (.not ⟨0, 5⟩ (.literal ⟨1, 5⟩ (.number number)))
        (.identifier ⟨8, 9⟩ "a"))
      (.binary ⟨11, 23⟩ .eq (.identifier ⟨11, 12⟩ "b") (.literal ⟨14, 23⟩ (.string "é\"\n\\")))
  have hparse : parse text = .ok e := by decide +kernel
  have hpretty : e.pretty = printed := by decide +kernel
  have htext : number.toText = ['-', '2', '.', '5'] := by decide +kernel
  have hnumber : (Value.number number).IsPrintable := by
    have hwhole : Token.IsDigits ['2'] := ⟨List.cons_ne_nil _ _, List.forall_mem_singleton.mpr rfl⟩
    have hfraction : Token.IsDigits ['5'] :=
      ⟨List.cons_ne_nil _ _, List.forall_mem_singleton.mpr rfl⟩
    show Token.Spells (.literal (.number number)) number.toText
    rw [htext]
    exact .decimal true hwhole hfraction
  have hstring : (Value.string "é\"\n\\").IsPrintable := by
    show ∀ c ∈ ['é', '"', '\n', '\\'], Text.quoteChar c = [c] ∨ Text.quoteChar c ∈ Text.knownEscapes
    simp only [List.forall_mem_cons]
    exact ⟨.inl (by decide +kernel), .inr (by decide), .inr (by decide), .inr (by decide), nofun⟩
  have hprintable : e.IsPrintable := by
    intro v hv
    have hmem : v = .number number ∨ v = .string "é\"\n\\" := by
      simpa [e, Expr.literals] using hv
    rcases hmem with rfl | rfl
    · exact hnumber
    · exact hstring
  obtain ⟨⟨e', hparse', herase, -⟩, -⟩ := parse_pretty text e hparse hprintable
  rw [hpretty] at hparse'
  exact ⟨e, e', hparse, hprintable, hpretty, hparse', herase⟩

end Condition

end CondRegions
