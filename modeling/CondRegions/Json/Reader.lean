import CondRegions.Json.Numeral

/-!
# Reading JSON

A text is cut into tokens, and the tokens are read in one pass with a stack of the arrays and
objects that are still open. At most 127 of them may be open at a time. Strings hold no control
characters, and escapes that name half of a surrogate pair are refused unless the other half
follows.
-/

namespace CondRegions.Json

/-! ### Tokens -/

/-- A token. -/
inductive Token where
  | openArray
  | closeArray
  | openObject
  | closeObject
  | comma
  | colon
  | scalar (value : Json)

/-- Whether a character may stand between tokens. -/
def isSpace (c : Char) : Bool :=
  c == ' ' || c == '\t' || c == '\n' || c == '\r'

/-- The value of a hexadecimal digit. -/
def hexDigit? (c : Char) : Option Nat :=
  if '0' ≤ c && c ≤ '9' then some (c.toNat - '0'.toNat)
  else if 'a' ≤ c && c ≤ 'f' then some (c.toNat - 'a'.toNat + 10)
  else if 'A' ≤ c && c ≤ 'F' then some (c.toNat - 'A'.toNat + 10)
  else none

/-- The number written in hexadecimal digits. -/
def hexNumber? (cs : List Char) : Option Nat :=
  cs.foldlM (fun n c => (hexDigit? c).map (16 * n + ·)) 0

/-- Whether a code unit is the first half of a surrogate pair. -/
def isHighSurrogate (n : Nat) : Bool :=
  0xD800 ≤ n && n < 0xDC00

/-- Whether a code unit is the second half of a surrogate pair. -/
def isLowSurrogate (n : Nat) : Bool :=
  0xDC00 ≤ n && n < 0xE000

/-- The code point behind `\u`, and what follows. -/
def codePoint? (cs : List Char) : Option (Char × List Char) := do
  let n ← hexNumber? (cs.take 4)
  let rest := cs.drop 4
  if (cs.take 4).length < 4 || isLowSurrogate n then none
  else if isHighSurrogate n then
    let low ← ['\\', 'u'].isPrefixOf? rest
    let m ← hexNumber? (low.take 4)
    if (low.take 4).length < 4 || !isLowSurrogate m then none
    else some (Char.ofNat (0x10000 + (n - 0xD800) * 0x400 + (m - 0xDC00)), low.drop 4)
  else some (Char.ofNat n, rest)

/-- What a backslash and `c` stand for. -/
def shortEscape? (c : Char) : Option Char :=
  match c with
  | '"' => some '"'
  | '\\' => some '\\'
  | '/' => some '/'
  | 'b' => some '\x08'
  | 'f' => some '\x0c'
  | 'n' => some '\n'
  | 'r' => some '\r'
  | 't' => some '\t'
  | _ => none

/-- One character of a string, and what follows; a closing quote is none. -/
def stringChar? : List Char → Option (Char × List Char)
  | '\\' :: 'u' :: cs => codePoint? cs
  | '\\' :: c :: cs => (shortEscape? c).map (·, cs)
  | c :: cs => if c.toNat < 0x20 || c = '\\' || c = '"' then none else some (c, cs)
  | [] => none

theorem length_codePoint?_le {cs rest : List Char} {c : Char}
    (h : codePoint? cs = some (c, rest)) : rest.length ≤ cs.length := by
  unfold codePoint? at h
  simp only [Option.bind_eq_bind, Option.bind_eq_some_iff] at h
  obtain ⟨n, -, h⟩ := h
  split at h
  · simp at h
  · split at h
    · obtain ⟨low, hlow, m, -, h⟩ := by simpa only [Option.bind_eq_some_iff] using h
      split at h
      · simp at h
      · simp only [Option.some.injEq, Prod.mk.injEq] at h
        obtain ⟨-, rfl⟩ := h
        have hlength := Text.length_of_isPrefixOf? hlow
        simp only [List.length_cons, List.length_nil, List.length_drop] at hlength ⊢
        omega
    · simp only [Option.some.injEq, Prod.mk.injEq] at h
      obtain ⟨-, rfl⟩ := h
      simp

/-- A character of a string takes at least one character of the text. -/
theorem length_stringChar?_lt {cs rest : List Char} {c : Char}
    (h : stringChar? cs = some (c, rest)) : rest.length < cs.length := by
  unfold stringChar? at h
  split at h
  · have := length_codePoint?_le h
    simp only [List.length_cons]
    omega
  · simp only [Option.map_eq_some_iff, Prod.mk.injEq] at h
    obtain ⟨_, -, -, rfl⟩ := h
    simp only [List.length_cons]
    omega
  · split at h <;> simp_all
  · simp at h

/-- The characters of a string up to its closing quote, and what follows; `done` are the characters
read so far, the last one first. -/
def scanString? (done : List Char) (cs : List Char) : Option (String × List Char) :=
  match cs with
  | '"' :: rest => some (String.ofList done.reverse, rest)
  | cs =>
    match _ : stringChar? cs with
    | none => none
    | some (c, rest) => scanString? (c :: done) rest
termination_by cs.length
decreasing_by exact length_stringChar?_lt ‹_›

/-- The names that are values. -/
def scanName? (cs : List Char) : Option (Json × List Char) :=
  let name (text : String) (value : Json) := (text.toList.isPrefixOf? cs).map (value, ·)
  name "null" .null |>.orElse fun _ => name "true" (.bool true) |>.orElse fun _ =>
    name "false" (.bool false)

/-- One token at the start of a text, and what follows. -/
def scanToken? : List Char → Option (Token × List Char)
  | [] => none
  | '[' :: cs => some (.openArray, cs)
  | ']' :: cs => some (.closeArray, cs)
  | '\x7b' :: cs => some (.openObject, cs)
  | '\x7d' :: cs => some (.closeObject, cs)
  | ',' :: cs => some (.comma, cs)
  | ':' :: cs => some (.colon, cs)
  | '"' :: cs => (scanString? [] cs).map fun (s, rest) => (.scalar (.string s), rest)
  | cs =>
    match scanName? cs with
    | some (value, rest) => some (.scalar value, rest)
    | none => do
      let (numeral, rest) ← scanNumeral? cs
      return (.scalar (← numeral.toJson?), rest)

theorem length_scanString?_lt {done cs rest : List Char} {s : String}
    (h : scanString? done cs = some (s, rest)) : rest.length < cs.length := by
  fun_induction scanString? done cs with
  | case1 => simp_all
  | case2 => simp at h
  | case3 done cs _ c tail hc ih =>
    exact Nat.lt_trans (ih h) (length_stringChar?_lt hc)

theorem length_scanName?_lt {cs rest : List Char} {value : Json}
    (h : scanName? cs = some (value, rest)) : rest.length < cs.length := by
  have name : ∀ (text : String) (v : Json), 0 < text.toList.length →
      (text.toList.isPrefixOf? cs).map (v, ·) = some (value, rest) → rest.length < cs.length := by
    intro text v positive h
    simp only [Option.map_eq_some_iff, Prod.mk.injEq] at h
    obtain ⟨r, hr, -, rfl⟩ := h
    have hlength := Text.length_of_isPrefixOf? hr
    omega
  simp only [scanName?, Option.orElse_eq_or, Option.or_eq_some_iff] at h
  rcases h with h | ⟨-, h | ⟨-, h⟩⟩
  · exact name "null" .null (by decide) h
  · exact name "true" (.bool true) (by decide) h
  · exact name "false" (.bool false) (by decide) h

/-- Reading a token leaves a shorter text. -/
theorem length_scanToken?_lt {cs rest : List Char} {t : Token}
    (h : scanToken? cs = some (t, rest)) : rest.length < cs.length := by
  unfold scanToken? at h
  split at h
  case h_8 =>
    simp only [Option.map_eq_some_iff, Prod.mk.injEq] at h
    obtain ⟨⟨s, r⟩, hs, -, rfl⟩ := h
    exact Nat.lt_succ_of_lt (length_scanString?_lt hs)
  case h_9 =>
    split at h
    · rename_i value r hn
      simp only [Option.some.injEq, Prod.mk.injEq] at h
      obtain ⟨-, rfl⟩ := h
      exact length_scanName?_lt hn
    · simp only [Option.bind_eq_bind, Option.bind_eq_some_iff, pure, Option.some.injEq,
        Prod.mk.injEq] at h
      obtain ⟨⟨numeral, r⟩, hn, v, -, -, rfl⟩ := h
      exact length_scanNumeral?_lt hn
  all_goals simp_all

/-- The tokens of a text; `done` are the tokens read so far, the last one first. -/
def tokens? (done : List Token) (cs : List Char) : Option (List Token) :=
  match _ : cs.dropWhile isSpace with
  | [] => some done.reverse
  | c :: body =>
    match _ : scanToken? (c :: body) with
    | none => none
    | some (token, rest) => tokens? (token :: done) rest
termination_by cs.length
decreasing_by
  have shorter : rest.length < (c :: body).length := length_scanToken?_lt ‹_›
  have skipped : (cs.dropWhile isSpace).length ≤ cs.length :=
    (List.dropWhile_sublist isSpace).length_le
  simp_all only [List.length_cons]
  omega

/-! ### Values -/

/-- An array or object that is still open. -/
inductive Frame where
  /-- The items read, the last one first. -/
  | array (items : List Json)
  /-- The entries read, the last one first, and the key whose value comes next. -/
  | object (entries : List (String × Json)) (key : String)

/-- Where the reader stands between two tokens; the open arrays and objects are listed from the
inside. -/
inductive State where
  /-- A value is due. -/
  | due (stack : List Frame)
  /-- An array has just been opened. -/
  | arrayOpened (stack : List Frame)
  /-- An object has just been opened. -/
  | objectOpened (stack : List Frame)
  /-- A key is due. -/
  | keyDue (stack : List Frame) (entries : List (String × Json))
  /-- A colon is due. -/
  | colonDue (stack : List Frame) (entries : List (String × Json)) (key : String)
  /-- A value has just been read. -/
  | read (stack : List Frame) (value : Json)

/-- The number of arrays and objects that may be open at a time. -/
def maxDepth : Nat := 127

/-- The effect of a token where a value is due. -/
def startValue? (stack : List Frame) : Token → Option State
  | .scalar v => some (.read stack v)
  | .openArray => if stack.length < maxDepth then some (.arrayOpened stack) else none
  | .openObject => if stack.length < maxDepth then some (.objectOpened stack) else none
  | _ => none

/-- The effect of a token. -/
def step? : State → Token → Option State
  | .due stack, t => startValue? stack t
  | .arrayOpened stack, .closeArray => some (.read stack (.array []))
  | .arrayOpened stack, t => startValue? (.array [] :: stack) t
  | .objectOpened stack, .closeObject => some (.read stack (.object []))
  | .objectOpened stack, .scalar (.string key) => some (.colonDue stack [] key)
  | .keyDue stack entries, .scalar (.string key) => some (.colonDue stack entries key)
  | .colonDue stack entries key, .colon => some (.due (.object entries key :: stack))
  | .read (.array items :: stack) v, .comma => some (.due (.array (v :: items) :: stack))
  | .read (.array items :: stack) v, .closeArray =>
    some (.read stack (.array (v :: items).reverse))
  | .read (.object entries key :: stack) v, .comma => some (.keyDue stack ((key, v) :: entries))
  | .read (.object entries key :: stack) v, .closeObject =>
    some (.read stack (.object ((key, v) :: entries).reverse))
  | _, _ => none

/-- **Reading.** The value that a whole text denotes. -/
def parse? (text : String) : Option Json := do
  match ← (← tokens? [] text.toList).foldlM step? (.due []) with
  | .read [] v => some v
  | _ => none

end CondRegions.Json
