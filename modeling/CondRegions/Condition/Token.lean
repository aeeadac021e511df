import CondRegions.Condition.Operator
import CondRegions.Span
import CondRegions.Value

/-!
# Tokens of the condition language

A condition is a sequence of tokens with blanks between them. `Token.scan?` reads the longest token
at the start of a text, and `Lexed.ofText` all tokens of a text. A text need not be made of tokens
only: the reading stops at the first place where no token starts, and remembers where that was.

A numeral that runs into a letter, and a string without its closing quote, start no token.
-/

namespace CondRegions

/-- A token. -/
inductive Token where
  /-- The negation sign. -/
  | bang
  | openParen
  | closeParen
  | operator (op : Operator)
  | literal (value : Value)
  | identifier (name : String)
deriving DecidableEq, Repr

namespace Token

/-- Whether a character may open a name. -/
def isNameStart (c : Char) : Bool :=
  c.isAlpha || c == '_' || c == '$'

/-- Whether a character may stand inside a name. -/
def isNamePart (c : Char) : Bool :=
  c.isAlphanum || c == '_' || c == '$'

/-- What a name stands for: four names are literals, any other is an identifier. -/
def ofName (cs : List Char) : Token :=
  let name := String.ofList cs
  if name = "true" then .literal (.bool true)
  else if name = "false" then .literal (.bool false)
  else if name = "null" then .literal .null
  else if name = "undefined" then .literal .undefined
  else .identifier name

/-- An operator, parenthesis or negation sign at the start of a text: the longest one that fits. -/
def scanSymbol? : List Char → Option (Token × List Char)
  | '(' :: cs => some (.openParen, cs)
  | ')' :: cs => some (.closeParen, cs)
  | '|' :: '|' :: cs => some (.operator .or, cs)
  | '&' :: '&' :: cs => some (.operator .and, cs)
  | '=' :: '=' :: '=' :: cs => some (.operator .strictEq, cs)
  | '!' :: '=' :: '=' :: cs => some (.operator .strictNe, cs)
  | '=' :: '=' :: cs => some (.operator .eq, cs)
  | '!' :: '=' :: cs => some (.operator .ne, cs)
  | '<' :: '=' :: cs => some (.operator .le, cs)
  | '>' :: '=' :: cs => some (.operator .ge, cs)
  | '<' :: cs => some (.operator .lt, cs)
  | '>' :: cs => some (.operator .gt, cs)
  | '!' :: cs => some (.bang, cs)
  | _ => none

/-- The fraction of a numeral: a point with at least one digit behind it, or nothing. -/
def takeFraction : List Char → List Char × List Char
  | '.' :: cs =>
    match cs.takeWhile Number.isDigit with
    | [] => ([], '.' :: cs)
    | ds => (ds, cs.dropWhile Number.isDigit)
  | cs => ([], cs)

/-- An unsigned numeral at the start of a text; no letter, digit, underscore or dollar sign may
follow. -/
def scanUnsigned? (negative : Bool) (cs : List Char) : Option (Token × List Char) :=
  match cs.takeWhile Number.isDigit with
  | [] => none
  | whole =>
    let (fraction, rest) := takeFraction (cs.dropWhile Number.isDigit)
    if rest.head?.any isNamePart then none
    else
      let n := Number.ofDecimal negative (Number.natOfDigits (whole ++ fraction))
        (-(fraction.length : Int))
      some (.literal (.number n), rest)

/-- A numeral at the start of a text, with an optional minus. -/
def scanNumber? : List Char → Option (Token × List Char)
  | '-' :: cs => scanUnsigned? true cs
  | cs => scanUnsigned? false cs

/-- What a backslash and `c` stand for in a string. -/
def unescape (c : Char) : Char :=
  match c with
  | 'n' => '\n'
  | 't' => '\t'
  | c => c

/-- The characters of a string up to its closing quote, and what follows. -/
def scanString? (quote : Char) : List Char → Option (List Char × List Char)
  | [] => none
  | '\\' :: c :: cs => (scanString? quote cs).map fun (s, rest) => (unescape c :: s, rest)
  | ['\\'] => none
  | c :: cs =>
    if c = quote then some ([], cs)
    else (scanString? quote cs).map fun (s, rest) => (c :: s, rest)

/-- **One token.** The longest token at the start of a text, and what follows. -/
def scan? (cs : List Char) : Option (Token × List Char) :=
  match cs with
  | [] => none
  | c :: rest =>
    if c = '"' || c = '\'' then
      (scanString? c rest).map fun (s, rest) => (.literal (.string (String.ofList s)), rest)
    else if isNameStart c then some (ofName (cs.takeWhile isNamePart), cs.dropWhile isNamePart)
    else (scanSymbol? cs).orElse fun _ => scanNumber? cs

/-! ### A token takes at least one character -/

theorem length_scanSymbol?_lt {cs rest : List Char} {t : Token}
    (h : scanSymbol? cs = some (t, rest)) : rest.length < cs.length := by
  unfold scanSymbol? at h
  split at h <;> simp_all <;> omega

theorem length_takeFraction_le (cs : List Char) : (takeFraction cs).2.length ≤ cs.length := by
  unfold takeFraction
  split
  · split
    · simp
    · rename_i cs _ _
      have := (List.dropWhile_sublist Number.isDigit (l := cs)).length_le
      simpa using Nat.le_succ_of_le this
  · simp

theorem length_scanUnsigned?_lt {negative : Bool} {cs rest : List Char} {t : Token}
    (h : scanUnsigned? negative cs = some (t, rest)) : rest.length < cs.length := by
  unfold scanUnsigned? at h
  split at h
  · simp at h
  · rename_i whole hne
    have parts := List.takeWhile_append_dropWhile (p := Number.isDigit) (l := cs)
    have positive : 0 < (cs.takeWhile Number.isDigit).length := List.length_pos_iff.2 hne
    have fraction := length_takeFraction_le (cs.dropWhile Number.isDigit)
    simp only at h
    split at h
    · simp at h
    · simp only [Option.some.injEq, Prod.mk.injEq] at h
      obtain ⟨-, rfl⟩ := h
      have total := congrArg List.length parts
      rw [List.length_append] at total
      omega

theorem length_scanNumber?_lt {cs rest : List Char} {t : Token}
    (h : scanNumber? cs = some (t, rest)) : rest.length < cs.length := by
  unfold scanNumber? at h
  split at h
  · exact Nat.lt_succ_of_lt (length_scanUnsigned?_lt h)
  · exact length_scanUnsigned?_lt h

theorem length_scanString?_lt {quote : Char} {cs s rest : List Char}
    (h : scanString? quote cs = some (s, rest)) : rest.length < cs.length := by
  fun_induction scanString? quote cs generalizing s with
  | case1 => simp at h
  | case2 c cs ih =>
    obtain ⟨⟨s', r⟩, hs, heq⟩ := Option.map_eq_some_iff.1 h
    simp only [Prod.mk.injEq] at heq
    obtain ⟨-, rfl⟩ := heq
    have := ih hs
    simp only [List.length_cons]
    omega
  | case3 => simp at h
  | case4 cs hne => simp_all
  | case5 c cs _ _ _ ih =>
    obtain ⟨⟨s', r⟩, hs, heq⟩ := Option.map_eq_some_iff.1 h
    simp only [Prod.mk.injEq] at heq
    obtain ⟨-, rfl⟩ := heq
    have := ih hs
    simp only [List.length_cons]
    omega

/-- Reading a token leaves a shorter text. -/
theorem length_scan?_lt {cs rest : List Char} {t : Token}
    (h : scan? cs = some (t, rest)) : rest.length < cs.length := by
  unfold scan? at h
  split at h
  · simp at h
  · rename_i c tail
    split at h
    · obtain ⟨⟨s, r⟩, hs, heq⟩ := Option.map_eq_some_iff.1 h
      simp only [Prod.mk.injEq] at heq
      obtain ⟨-, rfl⟩ := heq
      have := length_scanString?_lt hs
      simp only [List.length_cons]
      omega
    · split at h
      · rename_i hname
        simp only [Option.some.injEq, Prod.mk.injEq] at h
        obtain ⟨-, rfl⟩ := h
        have part : isNamePart c = true := by
          simp only [isNameStart, isNamePart, Char.isAlphanum, Bool.or_eq_true] at hname ⊢
          rcases hname with (alpha | underscore) | dollar
          · exact .inl (.inl (.inl alpha))
          · exact .inl (.inr underscore)
          · exact .inr dollar
        rw [List.dropWhile_cons_of_pos part]
        exact Nat.lt_succ_of_le (List.dropWhile_sublist isNamePart).length_le
      · cases hsym : scanSymbol? (c :: tail) with
        | some found =>
          simp only [hsym, Option.orElse_some, Option.some.injEq] at h
          subst h
          exact length_scanSymbol?_lt hsym
        | none =>
          simp only [hsym, Option.orElse_none] at h
          exact length_scanNumber?_lt h

end Token

/-! ### All tokens of a text -/

/-- The tokens of a text up to the first place where none starts. -/
structure Lexed where
  /-- The tokens read, with their places. -/
  tokens : List (Spanned Token)
  /-- Where the reading stopped, blanks skipped. -/
  stop : Nat
  /-- Whether the reading stopped at the end of the text. -/
  complete : Bool
deriving DecidableEq, Repr

namespace Lexed

/-- The tokens of a text that starts at `offset`. -/
def fromOffset (offset : Nat) (cs : List Char) : Lexed :=
  let body := Text.skipBlanks cs
  let start := offset + (Text.byteLength cs - Text.byteLength body)
  match _ : Token.scan? body with
  | none => ⟨[], start, body.isEmpty⟩
  | some (t, rest) =>
    let stop := start + (Text.byteLength body - Text.byteLength rest)
    let later := fromOffset stop rest
    { later with tokens := ⟨t, ⟨start, stop⟩⟩ :: later.tokens }
termination_by cs.length
decreasing_by
  have shorter : rest.length < (Text.skipBlanks cs).length := Token.length_scan?_lt ‹_›
  have skipped : (Text.skipBlanks cs).length ≤ cs.length :=
    (List.dropWhile_sublist isBlank).length_le
  omega

/-- **Tokens of a text.** -/
def ofText (cs : List Char) : Lexed :=
  fromOffset 0 cs

end Lexed

end CondRegions
