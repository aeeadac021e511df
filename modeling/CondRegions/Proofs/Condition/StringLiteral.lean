import CondRegions.Proofs.Condition.Composition

/-!
# String literals

The scanner of a string does two things at a time: it looks for the closing quote, and it puts
together the characters that the string denotes. They can be told apart.

* *Where a string ends.* Between the quotes stand pieces (`Token.Piece`). A piece is a backslash
  with the character behind it, or one character that is neither the quote nor a backslash.
* *What it denotes.* `Token.decode` goes over the characters between the quotes and knows nothing of
  pieces. It could come to a backslash with nothing behind it; between the quotes of a string it
  does not, as a backslash is the first of two characters there
  (`Token.Piece.unescapeString_spelling`).

The scanner reads what the pieces spell and nothing else (`Token.scan?_eq_some_iff_pieces`). Every
string has such a spelling in either kind of quotes, `Token.enclose`; so every string can be written
in a condition.
-/

namespace CondRegions

namespace Token

/-! ### Pieces -/

/-- **Pieces** of what stands between the quotes of a string. -/
inductive Piece where
  /-- A backslash and the character behind it. -/
  | pair (c : Char)
  | plain (c : Char)
deriving DecidableEq, Repr

namespace Piece

/-- The characters of a piece. -/
def text : Piece → List Char
  | .pair c => ['\\', c]
  | .plain c => [c]

/-- The character that a piece denotes: two pairs stand for a line feed and a tab, all others for
their second character. -/
def char : Piece → Char
  | .pair 'n' => '\n'
  | .pair 't' => '\t'
  | .pair c => c
  | .plain c => c

/-- Whether a piece can stand between two such quotes. -/
def Fits (quote : Char) : Piece → Prop
  | .pair _ => True
  | .plain c => c ≠ quote ∧ c ≠ '\\'

/-- Pieces between quotes. -/
def spelling (quote : Char) (pieces : List Piece) : List Char :=
  quote :: pieces.flatMap text ++ [quote]

variable {quote : Char} {pieces : List Piece}

theorem char_pair (c : Char) : (pair c).char = unescape c := by
  unfold char unescape
  split <;> simp_all

/-- Pieces denote their characters. -/
theorem quoted (h : ∀ p ∈ pieces, p.Fits quote) :
    Quoted quote (pieces.flatMap text) (pieces.map char) := by
  -- piece by piece, as the text is quoted
  induction pieces with
  | nil => exact .nil
  | cons p pieces ih =>
    obtain ⟨hp, hpieces⟩ := List.forall_mem_cons.mp h
    cases p with
    | pair c =>
      rw [List.map_cons, char_pair]
      exact .escape c (ih hpieces)
    | plain c => exact .plain hp.1 hp.2 (ih hpieces)

/-- What stands between quotes is made of pieces. -/
theorem of_quoted {body chars : List Char} (h : Quoted quote body chars) :
    ∃ pieces : List Piece, (∀ p ∈ pieces, p.Fits quote) ∧ body = pieces.flatMap text ∧
      chars = pieces.map char := by
  -- and back: each step of the quoted text is a piece
  induction h with
  | nil => exact ⟨[], nofun, rfl, rfl⟩
  | escape c _ ih =>
    obtain ⟨pieces, hpieces, rfl, rfl⟩ := ih
    refine ⟨.pair c :: pieces, List.forall_mem_cons.mpr ⟨trivial, hpieces⟩, rfl, ?_⟩
    rw [List.map_cons, char_pair]
  | plain hquote hslash _ ih =>
    obtain ⟨pieces, hpieces, rfl, rfl⟩ := ih
    exact ⟨.plain _ :: pieces, List.forall_mem_cons.mpr ⟨⟨hquote, hslash⟩, hpieces⟩, rfl, rfl⟩

end Piece

/-! ### Decoding -/

/-- The characters that the text between two quotes denotes, and whether it has a backslash with
nothing behind it, which is kept. -/
def decode : List Char → List Char × Bool
  | [] => ([], false)
  | '\\' :: c :: cs => (unescape c :: (decode cs).1, (decode cs).2)
  | ['\\'] => (['\\'], true)
  | c :: cs => (c :: (decode cs).1, (decode cs).2)

/-- **Decoding.** What a string with its quotes denotes: the first byte and the last one are cut
off, and the rest is decoded. -/
def unescapeString (lexeme : List Char) : List Char × Bool :=
  decode (Text.slice lexeme 1 (Text.byteLength lexeme - 1))

/-- What stands between quotes is decoded to what it denotes, without a backslash left over. -/
theorem Quoted.decode_eq {quote : Char} {body chars : List Char} (h : Quoted quote body chars) :
    decode body = (chars, false) := by
  -- a backslash is always the first of two characters, so decoding never finds one alone
  induction h with
  | nil => rfl
  | escape c _ ih => rw [decode, ih]
  | plain _ hslash _ ih =>
    rw [decode.eq_4 _ _ (fun _ _ h _ => hslash h) (fun h _ => hslash h), ih]

/-- A quote takes one byte, so cutting off bytes cuts off the quotes. -/
theorem unescapeString_quote {quote : Char} (hquote : quote = '"' ∨ quote = '\'')
    (body : List Char) : unescapeString (quote :: body ++ [quote]) = decode body := by
  have hone : Text.byteLength [quote] = 1 := by
    rcases hquote with rfl | rfl <;> rfl
  have hlength : Text.byteLength (quote :: body ++ [quote]) - 1 = 1 + Text.byteLength body := by
    rw [Text.byteLength_append, ← List.singleton_append, Text.byteLength_append, hone]
    omega
  have hslice := Text.slice_split [quote] body [quote]
  rw [hone] at hslice
  unfold unescapeString
  rw [hlength, ← List.singleton_append, hslice]

/-- **Decoding a string** gives what its pieces denote. -/
theorem Piece.unescapeString_spelling {quote : Char} (hquote : quote = '"' ∨ quote = '\'')
    {pieces : List Piece} (h : ∀ p ∈ pieces, p.Fits quote) :
    unescapeString (spelling quote pieces) = (pieces.map char, false) :=
  (unescapeString_quote hquote _).trans (quoted h).decode_eq

/-- **The scanner behind a quote.** It reads the string up to where its pieces end, and its token is
what decoding gives. -/
theorem scan?_eq_some_iff_pieces {quote : Char} (hquote : quote = '"' ∨ quote = '\'')
    {cs rest : List Char} {t : Token} :
    scan? (quote :: cs) = some (t, rest) ↔
      ∃ pieces : List Piece, (∀ p ∈ pieces, p.Fits quote) ∧
        quote :: cs = Piece.spelling quote pieces ++ rest ∧
        t = .literal
          (.string (String.ofList (unescapeString (Piece.spelling quote pieces)).1)) := by
  constructor
  · intro h
    -- the scanner stops at the first quote that is not behind a backslash, so its text is quoted
    rw [scan?_quote hquote] at h
    obtain ⟨⟨chars, rest'⟩, hstring, heq⟩ := Option.map_eq_some_iff.mp h
    obtain ⟨rfl, rfl⟩ := Prod.mk.inj heq
    obtain ⟨body, rfl, hbody⟩ := quoted_of_scanString? hstring
    obtain ⟨pieces, hpieces, rfl, rfl⟩ := Piece.of_quoted hbody
    refine ⟨pieces, hpieces, ?_, ?_⟩
    · rw [Piece.spelling, List.cons_append, List.cons_append, List.append_assoc,
        List.singleton_append]
    · rw [Piece.unescapeString_spelling hquote hpieces]
  · -- the pieces give a quoted text, and the scanner reads it to its quote
    rintro ⟨pieces, hpieces, hcs, rfl⟩
    rw [hcs, Piece.unescapeString_spelling hquote hpieces]
    exact scan?_string hquote (Piece.quoted hpieces) rest

/-! ### Writing a string -/

/-- A character of a string, with a backslash before it if it is one or the quote. -/
def escape (quote c : Char) : List Char :=
  if c = '\\' ∨ c = quote then ['\\', c] else [c]

/-- **A string as it is written** between quotes. -/
def enclose (quote : Char) (s : List Char) : List Char :=
  quote :: s.flatMap (escape quote) ++ [quote]

/-- A string with these backslashes denotes itself. -/
theorem quoted_flatMap_escape {quote : Char} (hquote : quote = '"' ∨ quote = '\'') (s : List Char) :
    Quoted quote (s.flatMap (escape quote)) s := by
  -- neither the backslash nor a quote makes a line break or a tab of a backslash before it
  have hself : ∀ c, c = '\\' ∨ c = quote → unescape c = c := by
    rintro c (rfl | rfl)
    · rfl
    · rcases hquote with rfl | rfl <;> rfl
  -- a special character becomes a pair, any other one stays alone
  induction s with
  | nil => exact .nil
  | cons c s ih =>
    rw [List.flatMap_cons, escape]
    split
    · next hspecial =>
      have hescape := Quoted.escape c ih
      rwa [hself c hspecial] at hescape
    · next hspecial =>
      rw [not_or] at hspecial
      exact .plain hspecial.2 hspecial.1 ih

/-- A string as it is written is a lexeme, whatever follows. -/
theorem lexeme_enclose {quote : Char} (hquote : quote = '"' ∨ quote = '\'') (s : String)
    (rest : List Char) : Lexeme (.literal (.string s)) (enclose quote s.toList) rest := by
  refine .of_scan? ?_
  unfold enclose
  rw [scan?_string hquote (quoted_flatMap_escape hquote s.toList), String.ofList_toList]

end Token

namespace Condition

/-- **String literals.** Every string can be written in either kind of quotes, with a backslash
before every backslash and every such quote in it. With blanks around it, this parses as one
literal, whose value is the string and whose span is that of the text between the blanks.
Conversely, what is read behind a quote is made of pieces, and decoding it gives what they denote;
it never comes to a backslash with nothing behind it. -/
theorem string_literals (quote : Char) (hquote : quote = '"' ∨ quote = '\'') :
    (∀ (s : String) (before after : List Char), Text.IsBlanks before → Text.IsBlanks after →
      let lit := Token.enclose quote s.toList
      parse (String.ofList (before ++ lit ++ after)) =
        .ok (.literal ⟨Text.byteLength before, Text.byteLength before + Text.byteLength lit⟩
          (.string s))) ∧
    (∀ cs t rest, Token.scan? (quote :: cs) = some (t, rest) ↔
      ∃ pieces : List Token.Piece, (∀ p ∈ pieces, p.Fits quote) ∧
        quote :: cs = Token.Piece.spelling quote pieces ++ rest ∧
        t = .literal
          (.string (String.ofList (Token.unescapeString (Token.Piece.spelling quote pieces)).1))) ∧
    ∀ pieces : List Token.Piece, (∀ p ∈ pieces, p.Fits quote) →
      Token.unescapeString (Token.Piece.spelling quote pieces) =
        (pieces.map Token.Piece.char, false) := by
  refine ⟨?_, fun cs t rest => Token.scan?_eq_some_iff_pieces hquote, ?_⟩
  · -- the literal is one token, and the parser takes it as an operand
    intro s before after hbefore hafter
    exact parse_operand String.toList_ofList hbefore (Token.lexeme_enclose hquote s after) hafter
      rfl
  · intro pieces hpieces
    exact Token.Piece.unescapeString_spelling hquote hpieces

/-- A string that begins and ends with a backslash, with both quotes and a character of two bytes in
it; and a string of three pieces that ends with two backslashes. -/
theorem string_literals_backslashes :
    parse "\t '\\\\\\'\"é\\\\' " = .ok (.literal ⟨2, 13⟩ (.string "\\'\"é\\")) ∧
      Token.unescapeString "'\\n\"\\\\'".toList = (['\n', '"', '\\'], false) := by
  let pieces : List Token.Piece := [.pair 'n', .plain '"', .pair '\\']
  have htext : "\t '\\\\\\'\"é\\\\' " =
      String.ofList (['\t', ' '] ++ Token.enclose '\'' "\\'\"é\\".toList ++ [' ']) := by
    decide +kernel
  have hspelling : "'\\n\"\\\\'".toList = Token.Piece.spelling '\'' pieces := by decide +kernel
  have hbefore : Text.IsBlanks ['\t', ' '] :=
    List.forall_mem_cons.mpr ⟨rfl, List.forall_mem_singleton.mpr rfl⟩
  have hafter : Text.IsBlanks [' '] := List.forall_mem_singleton.mpr rfl
  have hfits : ∀ p ∈ pieces, p.Fits '\'' := by
    simp [pieces, Token.Piece.Fits]
  obtain ⟨hparse, -, hdecode⟩ := string_literals '\'' (.inr rfl)
  rw [htext, hspelling]
  exact ⟨hparse _ _ _ hbefore hafter, hdecode pieces hfits⟩

end Condition

end CondRegions
