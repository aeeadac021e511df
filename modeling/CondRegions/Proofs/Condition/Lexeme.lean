import CondRegions.Condition.Token
import Mathlib.Data.List.TakeWhile

/-!
# Lexemes

How tokens are spelled, said without the scanner. A token has a set of spellings (`Token.Spells`):
symbols have one each, four names are literals and all other names are identifiers, numerals and
strings denote their values. A *lexeme* is a spelling at the start of a text that is the longest one
there (`Token.Lexeme`); a numeral, moreover, may not run into a name.

* `Token.Spells.length_le` — no spelling at the start of a text is longer than what the scanner
  reads;
* `Token.spells_of_scan?` — what the scanner reads is a spelling;
* `Token.scan?_eq_some_iff` — so the scanner reads a token exactly if its lexeme is what the text
  begins with.
-/

namespace CondRegions

namespace Token

/-! ### Spellings -/

/-- The names that are literals, with their values. -/
def keywords : List (String × Value) :=
  [("true", .bool true), ("false", .bool false), ("null", .null), ("undefined", .undefined)]

/-- A run of at least one digit. -/
def IsDigits (ds : List Char) : Prop :=
  ds ≠ [] ∧ ∀ d ∈ ds, Number.isDigit d = true

/-- A name: a character that may open one, and any number that may stand in one. -/
def IsName (cs : List Char) : Prop :=
  ∃ c part, cs = c :: part ∧ isNameStart c = true ∧ ∀ d ∈ part, isNamePart d = true

/-- What stands between the quotes of a string, and the characters that it denotes. A backslash
takes the next character with it, whatever it is. -/
inductive Quoted (quote : Char) : List Char → List Char → Prop where
  | nil : Quoted quote [] []
  | escape (c : Char) {body chars : List Char} (h : Quoted quote body chars) :
      Quoted quote ('\\' :: c :: body) (unescape c :: chars)
  | plain {c : Char} {body chars : List Char} (hquote : c ≠ quote) (hslash : c ≠ '\\')
      (h : Quoted quote body chars) : Quoted quote (c :: body) (c :: chars)

/-- The minus of a negative numeral. -/
def minus (negative : Bool) : List Char :=
  if negative then ['-'] else []

/-- **Spellings** of a token. -/
inductive Spells : Token → List Char → Prop where
  | bang : Spells .bang ['!']
  | openParen : Spells .openParen ['(']
  | closeParen : Spells .closeParen [')']
  | operator (op : Operator) : Spells (.operator op) op.symbol.toList
  | integer (negative : Bool) {whole : List Char} (hwhole : IsDigits whole) :
      Spells (.literal (.number (Number.ofDecimal negative (Number.natOfDigits whole) 0)))
        (minus negative ++ whole)
  | decimal (negative : Bool) {whole fraction : List Char} (hwhole : IsDigits whole)
      (hfraction : IsDigits fraction) :
      Spells (.literal (.number (Number.ofDecimal negative
        (Number.natOfDigits (whole ++ fraction)) (-(fraction.length : Int)))))
        (minus negative ++ whole ++ '.' :: fraction)
  | string {quote : Char} (hquote : quote = '"' ∨ quote = '\'') {body chars : List Char}
      (h : Quoted quote body chars) :
      Spells (.literal (.string (String.ofList chars))) (quote :: body ++ [quote])
  | keyword {name : String} {v : Value} (h : (name, v) ∈ keywords) :
      Spells (.literal v) name.toList
  | identifier {cs : List Char} (hname : IsName cs)
      (hfree : String.ofList cs ∉ keywords.map Prod.fst) :
      Spells (.identifier (String.ofList cs)) cs

/-- Whether a token is a numeral. -/
def isNumeral : Token → Bool
  | .literal (.number _) => true
  | _ => false

/-- **Lexemes.** The token `t` is spelled by `cs`, which `rest` follows: no token has a longer
spelling at this place, and a numeral does not run into a name. -/
structure Lexeme (t : Token) (cs rest : List Char) : Prop where
  spells : Spells t cs
  longest : ∀ u ds, Spells u ds → ds <+: cs ++ rest → ds.length ≤ cs.length
  apart : t.isNumeral = true → rest.head?.any isNamePart = false

/-! ### Classes of characters -/

theorem isNamePart_of_isNameStart {c : Char} (h : isNameStart c = true) : isNamePart c = true := by
  simp only [isNameStart, isNamePart, Char.isAlphanum, Bool.or_eq_true] at h ⊢
  rcases h with (alpha | underscore) | dollar
  · exact .inl (.inl (.inl alpha))
  · exact .inl (.inr underscore)
  · exact .inr dollar

/-- The digits. -/
def digits : List Char := ['0', '1', '2', '3', '4', '5', '6', '7', '8', '9']

theorem mem_digits {c : Char} (h : Number.isDigit c = true) : c ∈ digits := by
  simp only [Number.isDigit, Bool.and_eq_true, decide_eq_true_eq, Char.le_def,
    UInt32.le_iff_toNat_le] at h
  obtain ⟨hlow, hhigh⟩ : 48 ≤ c.toNat ∧ c.toNat ≤ 57 := h
  -- the codes of the digits lie in a range of ten, which is searched
  have hall : ∀ n < 58, 48 ≤ n → Char.ofNat n ∈ digits := by decide
  rw [← Char.ofNat_toNat c]
  exact hall c.toNat (by omega) hlow

theorem isNamePart_of_isDigit {c : Char} (h : Number.isDigit c = true) : isNamePart c = true := by
  have hall : digits.all isNamePart = true := by decide
  exact List.all_eq_true.mp hall c (mem_digits h)

/-- The codes of white space. -/
def spaces : List Nat :=
  [0x09, 0x0A, 0x0B, 0x0C, 0x0D, 0x20, 0x85, 0xA0, 0x1680, 0x2000, 0x2001, 0x2002, 0x2003, 0x2004,
    0x2005, 0x2006, 0x2007, 0x2008, 0x2009, 0x200A, 0x2028, 0x2029, 0x202F, 0x205F, 0x3000]

theorem mem_spaces {c : Char} (h : isWhiteSpace c = true) : c.toNat ∈ spaces := by
  simp only [isWhiteSpace, Bool.or_eq_true, Bool.and_eq_true, decide_eq_true_eq, beq_iff_eq] at h
  simp only [spaces, List.mem_cons, List.not_mem_nil, or_false]
  omega

/-- No character that may stand in a name is white space. -/
theorem isWhiteSpace_of_isNamePart {c : Char} (h : isNamePart c = true) :
    isWhiteSpace c = false := by
  -- there are few codes of white space, so they are tried one by one
  have hall : (spaces.all fun n => !isNamePart (Char.ofNat n)) = true := by decide
  refine Bool.eq_false_iff.mpr fun hspace => ?_
  have hc := List.all_eq_true.mp hall c.toNat (mem_spaces hspace)
  rw [Char.ofNat_toNat, h] at hc
  cases hc

/-! ### What the scanner does, by the first character -/

/-- A quote opens a string. -/
theorem scan?_quote {quote : Char} (h : quote = '"' ∨ quote = '\'') (cs : List Char) :
    scan? (quote :: cs) = (scanString? quote cs).map fun (s, rest) =>
      (.literal (.string (String.ofList s)), rest) := by
  rcases h with rfl | rfl <;> rfl

/-- A character that may open a name opens one. -/
theorem scan?_name {c : Char} (h : isNameStart c = true) (cs : List Char) :
    scan? (c :: cs) =
      some (ofName ((c :: cs).takeWhile isNamePart), (c :: cs).dropWhile isNamePart) := by
  -- no quote can open a name, so the first test of the scanner fails
  have hquote : (c = '"' || c = '\'') = false := by
    rw [Bool.or_eq_false_iff, decide_eq_false_iff_not, decide_eq_false_iff_not]
    constructor
    · rintro rfl
      exact absurd h (by decide)
    · rintro rfl
      exact absurd h (by decide)
  rw [scan?, hquote, h]
  rfl

/-- Any other character is that of a symbol, or that of a numeral. -/
theorem scan?_other {c : Char} (hquote : (c = '"' || c = '\'') = false)
    (hname : isNameStart c = false) (cs : List Char) :
    scan? (c :: cs) = (scanSymbol? (c :: cs)).orElse fun _ => scanNumber? (c :: cs) := by
  rw [scan?, hquote, hname]
  rfl

/-- A minus or a digit opens a numeral. -/
theorem scan?_numeral {c : Char} (h : c ∈ '-' :: digits) (cs : List Char) :
    scan? (c :: cs) = scanNumber? (c :: cs) := by
  simp only [digits, List.mem_cons, List.not_mem_nil, or_false] at h
  rcases h with rfl | rfl | rfl | rfl | rfl | rfl | rfl | rfl | rfl | rfl | rfl <;> rfl

/-! ### Names -/

theorem IsName.all_isNamePart {cs : List Char} (h : IsName cs) : ∀ c ∈ cs, isNamePart c = true := by
  obtain ⟨c, part, rfl, hc, hpart⟩ := h
  exact List.forall_mem_cons.mpr ⟨isNamePart_of_isNameStart hc, hpart⟩

/-- The scanner reads a name to its end. -/
theorem scan?_isName {cs : List Char} (h : IsName cs) (rest : List Char) :
    scan? (cs ++ rest) =
      some (ofName (cs ++ rest.takeWhile isNamePart), rest.dropWhile isNamePart) := by
  -- all characters of the name are taken, and then those that follow and go on with it
  have hall := h.all_isNamePart
  obtain ⟨c, part, rfl, hc, -⟩ := h
  rw [List.cons_append, scan?_name hc, ← List.cons_append, List.takeWhile_append_of_pos hall,
    List.dropWhile_append_of_pos hall]

theorem isName_of_mem_keywords {name : String} {v : Value} (h : (name, v) ∈ keywords) :
    IsName name.toList := by
  have hname : ∀ {c : Char} {part : List Char}, isNameStart c = true → part.all isNamePart = true →
      IsName (c :: part) :=
    fun hc hpart => ⟨_, _, rfl, hc, List.all_eq_true.mp hpart⟩
  have hall : ∀ entry ∈ keywords, IsName entry.1.toList := by
    simp only [keywords, List.forall_mem_cons]
    exact ⟨@hname 't' ['r', 'u', 'e'] rfl rfl, @hname 'f' ['a', 'l', 's', 'e'] rfl rfl,
      @hname 'n' ['u', 'l', 'l'] rfl rfl,
      @hname 'u' ['n', 'd', 'e', 'f', 'i', 'n', 'e', 'd'] rfl rfl, nofun⟩
  exact hall _ h

/-- What a name stands for is spelled by it. -/
theorem spells_ofName {cs : List Char} (h : IsName cs) : Spells (ofName cs) cs := by
  have hkeyword : ∀ {name : String} {v : Value}, (name, v) ∈ keywords → String.ofList cs = name →
      Spells (.literal v) cs := by
    rintro name v hmem rfl
    have hspells := Spells.keyword hmem
    rwa [String.toList_ofList] at hspells
  -- the four names that are literals are tried in turn
  simp only [ofName]
  split
  · next heq => exact hkeyword (by decide) heq
  split
  · next heq => exact hkeyword (by decide) heq
  split
  · next heq => exact hkeyword (by decide) heq
  split
  · next heq => exact hkeyword (by decide) heq
  · -- none of them fits, so the name is an identifier
    next h1 h2 h3 h4 =>
    refine .identifier h ?_
    simp only [keywords, List.map_cons, List.map_nil, List.mem_cons, List.not_mem_nil, or_false,
      not_or]
    exact ⟨h1, h2, h3, h4⟩

theorem isNumeral_ofName (cs : List Char) : (ofName cs).isNumeral = false := by
  simp only [ofName]
  split_ifs <;> rfl

/-! ### Strings -/

/-- A string is read up to the quote that closes it. -/
theorem scanString?_quoted {quote : Char} (hquote : quote ≠ '\\') {body chars : List Char}
    (h : Quoted quote body chars) (rest : List Char) :
    scanString? quote (body ++ quote :: rest) = some (chars, rest) := by
  -- on the body: each of its parts is one step of the scanner
  induction h with
  | nil =>
    rw [List.nil_append, scanString?.eq_4 _ _ _ (fun _ _ h _ => hquote h) (fun h _ => hquote h),
      if_pos rfl]
  | escape c h ih =>
    rw [List.cons_append, List.cons_append, scanString?, ih]
    rfl
  | plain hne hslash h ih =>
    rw [List.cons_append, scanString?.eq_4 _ _ _ (fun _ _ h _ => hslash h) (fun h _ => hslash h),
      if_neg hne, ih]
    rfl

/-- The scanner reads a string with its quotes. -/
theorem scan?_string {quote : Char} (hquote : quote = '"' ∨ quote = '\'') {body chars : List Char}
    (h : Quoted quote body chars) (rest : List Char) :
    scan? (quote :: body ++ [quote] ++ rest) =
      some (.literal (.string (String.ofList chars)), rest) := by
  have hslash : quote ≠ '\\' := by
    rcases hquote with rfl | rfl <;> decide
  rw [List.cons_append, List.cons_append, List.append_assoc, List.singleton_append,
    scan?_quote hquote, scanString?_quoted hslash h]
  rfl

theorem quoted_of_scanString? {quote : Char} {cs chars rest : List Char}
    (h : scanString? quote cs = some (chars, rest)) :
    ∃ body, cs = body ++ quote :: rest ∧ Quoted quote body chars := by
  -- along the scanner; its two failures, at the end of the text, cannot be
  fun_induction scanString? quote cs generalizing chars with
  | case1 => cases h
  | case2 c cs ih =>
    obtain ⟨⟨chars', rest'⟩, hs, heq⟩ := Option.map_eq_some_iff.mp h
    obtain ⟨rfl, rfl⟩ := Prod.mk.inj heq
    obtain ⟨body, rfl, hbody⟩ := ih hs
    exact ⟨'\\' :: c :: body, rfl, .escape c hbody⟩
  | case3 => cases h
  | case4 cs =>
    obtain ⟨rfl, rfl⟩ := Prod.mk.inj (Option.some.inj h)
    exact ⟨[], rfl, .nil⟩
  | case5 c cs hslash hlone hne ih =>
    obtain ⟨⟨chars', rest'⟩, hs, heq⟩ := Option.map_eq_some_iff.mp h
    obtain ⟨rfl, rfl⟩ := Prod.mk.inj heq
    obtain ⟨body, rfl, hbody⟩ := ih hs
    refine ⟨c :: body, rfl, .plain hne ?_ hbody⟩
    rintro rfl
    -- a backslash at this place would have taken the next character with it
    cases body with
    | nil => exact hslash _ _ rfl rfl
    | cons d body => exact hslash _ _ rfl rfl

/-! ### Symbols -/

/-- What the scanner reads as a symbol is the spelling of one. -/
theorem spells_of_scanSymbol? {cs rest : List Char} {t : Token}
    (h : scanSymbol? cs = some (t, rest)) :
    ∃ ds, cs = ds ++ rest ∧ Spells t ds ∧ t.isNumeral = false := by
  unfold scanSymbol? at h
  split at h
  case h_14 => cases h
  -- one case for each symbol, in the order in which the scanner tries them
  all_goals obtain ⟨rfl, rfl⟩ := Prod.mk.inj (Option.some.inj h)
  · exact ⟨['('], rfl, .openParen, rfl⟩
  · exact ⟨[')'], rfl, .closeParen, rfl⟩
  · exact ⟨['|', '|'], rfl, .operator .or, rfl⟩
  · exact ⟨['&', '&'], rfl, .operator .and, rfl⟩
  · exact ⟨['=', '=', '='], rfl, .operator .strictEq, rfl⟩
  · exact ⟨['!', '=', '='], rfl, .operator .strictNe, rfl⟩
  · exact ⟨['=', '='], rfl, .operator .eq, rfl⟩
  · exact ⟨['!', '='], rfl, .operator .ne, rfl⟩
  · exact ⟨['<', '='], rfl, .operator .le, rfl⟩
  · exact ⟨['>', '='], rfl, .operator .ge, rfl⟩
  · exact ⟨['<'], rfl, .operator .lt, rfl⟩
  · exact ⟨['>'], rfl, .operator .gt, rfl⟩
  · exact ⟨['!'], rfl, .bang, rfl⟩

/-- The scanner tries symbols before numerals. -/
theorem scan?_of_scanSymbol? {cs rest : List Char} {t : Token}
    (h : scanSymbol? cs = some (t, rest)) : scan? cs = some (t, rest) := by
  -- no symbol begins with a quote or like a name
  have hother : scan? cs = (scanSymbol? cs).orElse fun _ => scanNumber? cs := by
    unfold scanSymbol? at h
    split at h <;> first | rfl | cases h
  rw [hother, h]
  rfl

/-- Where an operator stands, the scanner reads an operator that is at least as long. -/
theorem scan?_operator (op : Operator) (rest : List Char) :
    ∃ op' rest', scan? (op.symbol.toList ++ rest) = some (.operator op', rest') ∧
      rest' <:+ rest := by
  by_cases h : ∃ cs, rest = '=' :: cs
  · -- an equals sign makes four operators longer
    obtain ⟨cs, rfl⟩ := h
    cases op with
    | eq => exact ⟨.strictEq, cs, rfl, List.suffix_cons _ _⟩
    | ne => exact ⟨.strictNe, cs, rfl, List.suffix_cons _ _⟩
    | lt => exact ⟨.le, cs, rfl, List.suffix_cons _ _⟩
    | gt => exact ⟨.ge, cs, rfl, List.suffix_cons _ _⟩
    | or => exact ⟨.or, _, rfl, List.suffix_refl _⟩
    | and => exact ⟨.and, _, rfl, List.suffix_refl _⟩
    | strictEq => exact ⟨.strictEq, _, rfl, List.suffix_refl _⟩
    | strictNe => exact ⟨.strictNe, _, rfl, List.suffix_refl _⟩
    | le => exact ⟨.le, _, rfl, List.suffix_refl _⟩
    | ge => exact ⟨.ge, _, rfl, List.suffix_refl _⟩
  · -- nothing else goes on with an operator
    refine ⟨op, rest, scan?_of_scanSymbol? ?_, List.suffix_refl _⟩
    rw [not_exists] at h
    cases op <;> simp [Operator.symbol, scanSymbol?]

/-! ### Numerals -/

theorem IsDigits.takeWhile_append {ds : List Char} (h : IsDigits ds) (rest : List Char) :
    (ds ++ rest).takeWhile Number.isDigit = ds ++ rest.takeWhile Number.isDigit :=
  List.takeWhile_append_of_pos h.2

theorem IsDigits.dropWhile_append {ds : List Char} (h : IsDigits ds) (rest : List Char) :
    (ds ++ rest).dropWhile Number.isDigit = rest.dropWhile Number.isDigit :=
  List.dropWhile_append_of_pos h.2

theorem IsDigits.takeWhile_ne_nil {ds : List Char} (h : IsDigits ds) (rest : List Char) :
    (ds ++ rest).takeWhile Number.isDigit ≠ [] := by
  rw [h.takeWhile_append]
  exact List.append_ne_nil_of_left_ne_nil h.1 _

/-- The digits that a text begins with. -/
theorem isDigits_takeWhile {cs : List Char} (h : cs.takeWhile Number.isDigit ≠ []) :
    IsDigits (cs.takeWhile Number.isDigit) :=
  ⟨h, fun _ hd => List.mem_takeWhile_imp hd⟩

/-- The scanner on a text that begins with digits. -/
theorem scanUnsigned?_eq {cs : List Char} (h : cs.takeWhile Number.isDigit ≠ []) (negative : Bool) :
    scanUnsigned? negative cs =
      let whole := cs.takeWhile Number.isDigit
      let (fraction, rest) := takeFraction (cs.dropWhile Number.isDigit)
      if rest.head?.any isNamePart then none
      else some (.literal (.number (Number.ofDecimal negative
        (Number.natOfDigits (whole ++ fraction)) (-(fraction.length : Int)))), rest) := by
  unfold scanUnsigned?
  split
  · next hnil => exact absurd hnil h
  · rfl

/-- A fraction is a point and digits, or there is none. -/
theorem takeFraction_cases (cs : List Char) :
    takeFraction cs = ([], cs) ∨
      ∃ fraction rest, IsDigits fraction ∧ cs = '.' :: fraction ++ rest ∧
        takeFraction cs = (fraction, rest) := by
  unfold takeFraction
  -- a point is a fraction only if a digit follows it
  split
  · next cs =>
    split
    · exact .inl rfl
    · next hne =>
      refine .inr ⟨_, _, isDigits_takeWhile hne, ?_, rfl⟩
      rw [List.cons_append, List.takeWhile_append_dropWhile]
  · exact .inl rfl

/-- What the scanner reads as an unsigned numeral is the spelling of a number, and no name
follows. -/
theorem spells_of_scanUnsigned? {negative : Bool} {cs rest : List Char} {t : Token}
    (h : scanUnsigned? negative cs = some (t, rest)) :
    ∃ ds, cs = ds ++ rest ∧ Spells t (minus negative ++ ds) ∧
      rest.head?.any isNamePart = false := by
  -- a numeral has a digit before its point
  have hne : cs.takeWhile Number.isDigit ≠ [] := by
    intro hnil
    unfold scanUnsigned? at h
    rw [hnil] at h
    cases h
  have hwhole := isDigits_takeWhile hne
  have hcs := List.takeWhile_append_dropWhile (p := Number.isDigit) (l := cs)
  rw [scanUnsigned?_eq hne] at h
  -- the numeral is an integer, or it has a fraction; no name may run on in either case
  rcases takeFraction_cases (cs.dropWhile Number.isDigit) with
    hnone | ⟨fraction, rest', hfraction, hcut, hsome⟩
  · rw [hnone] at h
    dsimp only at h
    split at h
    · cases h
    · next hrest =>
      obtain ⟨rfl, rfl⟩ := Prod.mk.inj (Option.some.inj h)
      refine ⟨_, hcs.symm, ?_, by simpa using hrest⟩
      rw [List.append_nil]
      exact .integer negative hwhole
  · rw [hsome] at h
    dsimp only at h
    split at h
    · cases h
    · next hrest =>
      obtain ⟨rfl, rfl⟩ := Prod.mk.inj (Option.some.inj h)
      refine ⟨cs.takeWhile Number.isDigit ++ '.' :: fraction, ?_, ?_, by simpa using hrest⟩
      · rw [List.append_assoc, ← hcut, hcs]
      · rw [← List.append_assoc]
        exact .decimal negative hwhole hfraction

/-- What the scanner leaves behind digits, whatever follows them. -/
theorem rest_of_scanUnsigned? {negative : Bool} {whole rest rest' : List Char} {t : Token}
    (hwhole : IsDigits whole) (h : scanUnsigned? negative (whole ++ rest) = some (t, rest')) :
    rest' = (takeFraction (rest.dropWhile Number.isDigit)).2 := by
  rw [scanUnsigned?_eq (hwhole.takeWhile_ne_nil rest), hwhole.dropWhile_append] at h
  dsimp only at h
  split at h
  · cases h
  · exact (Prod.mk.inj (Option.some.inj h)).2.symm

theorem scan?_minus {negative : Bool} {whole : List Char} (hwhole : IsDigits whole)
    (rest : List Char) :
    scan? (minus negative ++ whole ++ rest) = scanUnsigned? negative (whole ++ rest) := by
  obtain ⟨d, ds, rfl⟩ := List.exists_cons_of_ne_nil hwhole.1
  -- with a sign or without, the first character is that of a numeral
  have hd := mem_digits (hwhole.2 d List.mem_cons_self)
  cases negative with
  | true => exact scan?_numeral List.mem_cons_self _
  | false =>
    refine (scan?_numeral (List.mem_cons_of_mem _ hd) _).trans ?_
    -- a digit is no minus
    unfold scanNumber?
    split
    · next heq =>
      rw [(List.cons.inj heq).1] at hd
      exact absurd hd (by decide)
    · rfl

/-- The fraction of a numeral is read to its end. -/
theorem takeFraction_point {fraction : List Char} (h : IsDigits fraction) (rest : List Char) :
    takeFraction ('.' :: fraction ++ rest) =
      (fraction ++ rest.takeWhile Number.isDigit, rest.dropWhile Number.isDigit) := by
  rw [List.cons_append, takeFraction, h.takeWhile_append, h.dropWhile_append]
  split
  · -- there is a digit behind the point, so it is a fraction
    next hnil => exact absurd (List.append_eq_nil_iff.mp hnil).1 h.1
  · rfl

/-! ### The scanner reads lexemes -/

/-- **What the scanner reads** is a spelling of the token, and no name follows a numeral. -/
theorem spells_of_scan? {cs rest : List Char} {t : Token} (h : scan? cs = some (t, rest)) :
    ∃ ds, cs = ds ++ rest ∧ Spells t ds ∧
      (t.isNumeral = true → rest.head?.any isNamePart = false) := by
  cases cs with
  | nil => cases h
  | cons c cs =>
    -- the first character tells strings and names from the rest
    by_cases hquote : c = '"' ∨ c = '\''
    · rw [scan?_quote hquote] at h
      obtain ⟨⟨chars, rest'⟩, hs, heq⟩ := Option.map_eq_some_iff.mp h
      obtain ⟨rfl, rfl⟩ := Prod.mk.inj heq
      obtain ⟨body, rfl, hbody⟩ := quoted_of_scanString? hs
      exact ⟨c :: body ++ [c], by simp, .string hquote hbody, nofun⟩
    by_cases hname : isNameStart c = true
    · rw [scan?_name hname] at h
      obtain ⟨rfl, rfl⟩ := Prod.mk.inj (Option.some.inj h)
      refine ⟨_, List.takeWhile_append_dropWhile.symm, spells_ofName ?_, ?_⟩
      · rw [List.takeWhile_cons_of_pos (isNamePart_of_isNameStart hname)]
        exact ⟨c, _, rfl, hname, fun _ hd => List.mem_takeWhile_imp hd⟩
      · rw [isNumeral_ofName]
        exact nofun
    · -- neither a string nor a name: symbols are tried first, and numerals only behind them
      rw [scan?_other (by simpa using hquote) (by simpa using hname)] at h
      cases hs : scanSymbol? (c :: cs) with
      | some found =>
        rw [hs] at h
        obtain rfl := Option.some.inj h
        obtain ⟨ds, hcs, hspells, hnumeral⟩ := spells_of_scanSymbol? hs
        exact ⟨ds, hcs, hspells, fun ht => absurd (ht.symm.trans hnumeral) nofun⟩
      | none =>
        rw [hs] at h
        change scanNumber? (c :: cs) = some (t, rest) at h
        unfold scanNumber? at h
        split at h
        · next heq =>
          obtain ⟨ds, rfl, hspells, hrest⟩ := spells_of_scanUnsigned? h
          exact ⟨'-' :: ds, heq, hspells, fun _ => hrest⟩
        · obtain ⟨ds, hcs, hspells, hrest⟩ := spells_of_scanUnsigned? h
          exact ⟨ds, hcs, hspells, fun _ => hrest⟩

/-- **The scanner stops late.** Behind a spelling at the start of a text stands at least what the
scanner leaves. -/
theorem Spells.length_le {u t : Token} {ds rest rest' : List Char} (hu : Spells u ds)
    (h : scan? (ds ++ rest) = some (t, rest')) : rest'.length ≤ rest.length := by
  have hdrop : ∀ p : Char → Bool, (rest.dropWhile p).length ≤ rest.length := fun p =>
    (List.dropWhile_sublist p).length_le
  -- a name is read to its end, whether it is a literal or not
  have hname : IsName ds → rest'.length ≤ rest.length := by
    intro hds
    rw [scan?_isName hds] at h
    rw [← (Prod.mk.inj (Option.some.inj h)).2]
    exact hdrop _
  cases hu with
  | bang | openParen | closeParen => exact Nat.le_of_lt_succ (length_scan?_lt h)
  | operator op =>
    -- the scanner may read a longer operator
    obtain ⟨op', rest'', hscan, hsuf⟩ := scan?_operator op rest
    obtain ⟨-, rfl⟩ := Prod.mk.inj (Option.some.inj (h.symm.trans hscan))
    exact hsuf.length_le
  | integer negative hwhole =>
    -- more digits may follow, and a fraction
    rw [scan?_minus hwhole] at h
    rw [rest_of_scanUnsigned? hwhole h]
    exact Nat.le_trans (length_takeFraction_le _) (hdrop _)
  | decimal negative hwhole hfraction =>
    -- more digits of the fraction may follow
    rw [List.append_assoc, scan?_minus hwhole] at h
    rw [rest_of_scanUnsigned? hwhole h, List.cons_append,
      List.dropWhile_cons_of_neg (by decide), ← List.cons_append, takeFraction_point hfraction]
    exact hdrop _
  | string hquote hbody =>
    rw [scan?_string hquote hbody] at h
    rw [← (Prod.mk.inj (Option.some.inj h)).2]
  | keyword hmem => exact hname (isName_of_mem_keywords hmem)
  | identifier hds => exact hname hds

/-! ### Lexemes are read -/

namespace Lexeme

variable {t : Token} {cs rest : List Char}

/-- Where a longer spelling fits, there is no lexeme. -/
theorem not_longer (h : Lexeme t cs rest) {u : Token} {ds more : List Char} (hds : ds ≠ [])
    (hrest : rest = ds ++ more) : ¬ Spells u (cs ++ ds) := by
  intro hu
  have hle := h.longest u (cs ++ ds) hu ⟨more, by rw [hrest, List.append_assoc]⟩
  have hpos := List.length_pos_iff.mpr hds
  rw [List.length_append] at hle
  omega

/-- A name that is a lexeme is read as it is. -/
theorem scan?_name (h : Lexeme t cs rest) (hname : IsName cs) :
    scan? (cs ++ rest) = some (ofName cs, rest) := by
  have hparts := List.takeWhile_append_dropWhile (p := isNamePart) (l := rest)
  -- the name with what follows of it would be a longer name
  have hnone : rest.takeWhile isNamePart = [] := by
    by_contra hne
    refine h.not_longer hne hparts.symm (spells_ofName ?_)
    obtain ⟨c, part, rfl, hc, hpart⟩ := hname
    refine ⟨c, part ++ rest.takeWhile isNamePart, rfl, hc, fun d hd => ?_⟩
    rcases List.mem_append.mp hd with hd | hd
    · exact hpart d hd
    · exact List.mem_takeWhile_imp hd
  rw [hnone, List.nil_append] at hparts
  rw [scan?_isName hname, hnone, hparts, List.append_nil]

/-- Behind a numeral stands no digit. -/
theorem takeWhile_isDigit (h : Lexeme t cs rest) (ht : t.isNumeral = true) :
    rest.takeWhile Number.isDigit = [] ∧ rest.dropWhile Number.isDigit = rest := by
  have hrest := h.apart ht
  cases rest with
  | nil => exact ⟨rfl, rfl⟩
  | cons c rest =>
    have hc : ¬ Number.isDigit c = true := by
      intro hdigit
      rw [List.head?_cons, Option.any_some, isNamePart_of_isDigit hdigit] at hrest
      cases hrest
    exact ⟨List.takeWhile_cons_of_neg hc, List.dropWhile_cons_of_neg hc⟩

/-- Behind an operator that could be longer stands no equals sign. -/
theorem scan?_operator {op : Operator} (h : Lexeme (.operator op) op.symbol.toList rest) :
    scan? (op.symbol.toList ++ rest) = some (.operator op, rest) := by
  -- the equals sign would make another operator, and a longer one
  have hlonger : ∀ op' : Operator, op.symbol.toList ++ ['='] = op'.symbol.toList →
      ∀ cs, rest ≠ '=' :: cs := by
    rintro op' heq cs rfl
    refine h.not_longer (List.cons_ne_nil '=' []) rfl ?_ (u := .operator op')
    rw [heq]
    exact .operator op'
  refine scan?_of_scanSymbol? ?_
  -- four operators go on with an equals sign, and it is these that need the lexeme to be longest
  cases op with
  | or | and | strictEq | strictNe | le | ge => rfl
  | eq =>
    have := hlonger .strictEq rfl
    simp [Operator.symbol, scanSymbol?]
  | ne =>
    have := hlonger .strictNe rfl
    simp [Operator.symbol, scanSymbol?]
  | lt =>
    have := hlonger .le rfl
    simp [Operator.symbol, scanSymbol?]
  | gt =>
    have := hlonger .ge rfl
    simp [Operator.symbol, scanSymbol?]

theorem scan?_integer {negative : Bool} {n : Number} {whole : List Char} (hwhole : IsDigits whole)
    (h : Lexeme (.literal (.number n)) (minus negative ++ whole) rest) :
    scan? (minus negative ++ whole ++ rest) = some (.literal (.number
      (Number.ofDecimal negative (Number.natOfDigits whole) 0)), rest) := by
  obtain ⟨htake, hdrop⟩ := h.takeWhile_isDigit rfl
  -- a point with digits behind it would make the numeral longer
  have hfraction : takeFraction rest = ([], rest) := by
    rcases takeFraction_cases rest with hnone | ⟨fraction, more, hfraction, hcut, -⟩
    · exact hnone
    · exact absurd (.decimal negative hwhole hfraction)
        (h.not_longer (List.cons_ne_nil '.' fraction) hcut)
  -- so the scanner takes the digits of the lexeme and no more
  rw [scan?_minus hwhole, scanUnsigned?_eq (hwhole.takeWhile_ne_nil rest), hwhole.takeWhile_append,
    hwhole.dropWhile_append, htake, hdrop, hfraction]
  dsimp only
  rw [h.apart rfl, List.append_nil, List.append_nil]
  rfl

theorem scan?_decimal {negative : Bool} {n : Number} {whole fraction : List Char}
    (hwhole : IsDigits whole) (hfraction : IsDigits fraction)
    (h : Lexeme (.literal (.number n)) (minus negative ++ whole ++ '.' :: fraction) rest) :
    scan? (minus negative ++ whole ++ '.' :: fraction ++ rest) = some (.literal (.number
      (Number.ofDecimal negative (Number.natOfDigits (whole ++ fraction))
        (-(fraction.length : Int)))), rest) := by
  obtain ⟨htake, hdrop⟩ := h.takeWhile_isDigit rfl
  -- the whole part ends at the point
  have hpoint : ¬ Number.isDigit '.' = true := by decide
  rw [List.append_assoc, scan?_minus hwhole, scanUnsigned?_eq (hwhole.takeWhile_ne_nil _),
    hwhole.takeWhile_append, hwhole.dropWhile_append, List.cons_append,
    List.takeWhile_cons_of_neg hpoint,
    List.dropWhile_cons_of_neg hpoint, ← List.cons_append, takeFraction_point hfraction, htake,
    hdrop, List.append_nil, List.append_nil]
  dsimp only
  rw [h.apart rfl]
  rfl

/-- **A lexeme is read** by the scanner. -/
theorem scan?_eq (h : Lexeme t cs rest) : scan? (cs ++ rest) = some (t, rest) := by
  cases h.spells with
  | openParen | closeParen => rfl
  | bang =>
    refine scan?_of_scanSymbol? ?_
    -- with an equals sign behind it, this would be the operator `!=`
    have hne : ∀ ds, rest ≠ '=' :: ds := by
      rintro ds rfl
      exact h.not_longer (List.cons_ne_nil '=' []) rfl (.operator .ne)
    exact scanSymbol?.eq_13 rest (fun _ heq => hne _ heq) (fun _ heq => hne _ heq)
  | operator op => exact h.scan?_operator
  | integer negative hwhole => exact h.scan?_integer hwhole
  | decimal negative hwhole hfraction => exact h.scan?_decimal hwhole hfraction
  | string hquote hbody => exact scan?_string hquote hbody rest
  | @keyword name v hmem =>
    -- each of the four names stands for its literal
    have hvalue : ∀ entry ∈ keywords, ofName entry.1.toList = .literal entry.2 := by decide
    rw [h.scan?_name (isName_of_mem_keywords hmem), hvalue _ hmem]
  | identifier hname hfree =>
    have hvalue : ofName cs = .identifier (String.ofList cs) := by
      simp only [keywords, List.map_cons, List.map_nil, List.mem_cons, List.not_mem_nil, or_false,
        not_or] at hfree
      simp only [ofName, if_neg hfree.1, if_neg hfree.2.1, if_neg hfree.2.2.1, if_neg hfree.2.2.2]
    rw [h.scan?_name hname, hvalue]

end Lexeme

/-- **The scanner reads lexemes.** It reads a token exactly if the text begins with its lexeme. -/
theorem scan?_eq_some_iff {cs rest : List Char} {t : Token} :
    scan? cs = some (t, rest) ↔ ∃ ds, cs = ds ++ rest ∧ Lexeme t ds rest := by
  constructor
  · intro h
    obtain ⟨ds, rfl, hspells, hrest⟩ := spells_of_scan? h
    refine ⟨ds, rfl, hspells, fun u es hu hprefix => ?_, hrest⟩
    obtain ⟨more, hmore⟩ := hprefix
    -- the scanner leaves no more than what stands behind the other spelling
    rw [← hmore] at h
    have hle := hu.length_le h
    have hlen := congrArg List.length hmore
    rw [List.length_append, List.length_append] at hlen
    omega
  · rintro ⟨ds, rfl, h⟩
    exact h.scan?_eq

/-! ### White space -/

/-- A spelling is not made of white space. -/
theorem Spells.exists_not_isWhiteSpace {t : Token} {cs : List Char} (h : Spells t cs) :
    ∃ c ∈ cs, isWhiteSpace c = false := by
  have hname : ∀ {cs : List Char}, IsName cs → ∃ c ∈ cs, isWhiteSpace c = false := by
    rintro _ ⟨c, part, rfl, hc, -⟩
    exact ⟨c, List.mem_cons_self, isWhiteSpace_of_isNamePart (isNamePart_of_isNameStart hc)⟩
  have hdigits : ∀ {ds : List Char}, IsDigits ds → ∃ d ∈ ds, isWhiteSpace d = false := by
    rintro ds ⟨hne, hall⟩
    obtain ⟨d, hd⟩ := List.exists_mem_of_ne_nil ds hne
    exact ⟨d, hd, isWhiteSpace_of_isNamePart (isNamePart_of_isDigit (hall d hd))⟩
  -- each spelling has a character that may stand in a name, a quote or a mark
  cases h with
  | bang => exact ⟨'!', by simp, by decide⟩
  | openParen => exact ⟨'(', by simp, by decide⟩
  | closeParen => exact ⟨')', by simp, by decide⟩
  | operator op =>
    have hany : op.symbol.toList.any (fun c => !isWhiteSpace c) = true := by
      cases op <;> rfl
    simpa using List.any_eq_true.mp hany
  | integer negative hwhole =>
    obtain ⟨d, hd, hspace⟩ := hdigits hwhole
    exact ⟨d, List.mem_append_right _ hd, hspace⟩
  | decimal negative hwhole hfraction =>
    obtain ⟨d, hd, hspace⟩ := hdigits hwhole
    exact ⟨d, List.mem_append_left _ (List.mem_append_right _ hd), hspace⟩
  | @string quote hquote body chars hbody =>
    refine ⟨quote, List.mem_cons_self, ?_⟩
    rcases hquote with rfl | rfl <;> decide
  | keyword hmem => exact hname (isName_of_mem_keywords hmem)
  | identifier hcs => exact hname hcs

end Token

end CondRegions
