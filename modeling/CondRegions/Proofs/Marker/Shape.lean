import CondRegions.Proofs.Marker.Located
import CondRegions.Proofs.Text.Blanks
import CondRegions.Proofs.Text.Search

/-!
# The shapes of marker lines

What a line must look like to begin with a marker, said without the recognisers. All markers begin
with a *preamble*: blanks, the opener of the style, blanks, the number sign and the directive
(`IsPreamble`). All end in an *ending*: in the line style a line break or the end of the text, in
the other styles the closer, with the blanks and the line break behind it if nothing else follows
(`Ending`). Between the two an end marker has blanks (`EndLine`), a start marker its condition
(`StartLine`).

The recognisers find these lines and no others, with these markers
(`MarkerLine.startOnLine?_eq_some_iff`, `MarkerLine.endOnLine?_eq_some_iff`).
-/

namespace CondRegions

open MarkerLine

/-! ### Directives -/

namespace Kind

/-- Whether a directive opens a region. -/
def opens : Kind → Bool
  | .ifdef | .ifndef | .regionIfdef | .regionIfndef => true
  | .endif | .endregionEndif => false

/-- The words of a directive. -/
def words : Kind → List String
  | .ifdef => ["ifdef"]
  | .ifndef => ["ifndef"]
  | .regionIfdef => ["region", "ifdef"]
  | .regionIfndef => ["region", "ifndef"]
  | .endif => ["endif"]
  | .endregionEndif => ["endregion", "endif"]

end Kind

namespace MarkerLine

/-- **Written directives.** A gap separates two words. -/
inductive Written (kind : Kind) : List Char → Prop where
  | one {word : String} (h : kind.words = [word]) : Written kind word.toList
  | two {first second : String} {gap : List Char} (h : kind.words = [first, second])
      (hgap : Text.IsGap gap) : Written kind (first.toList ++ gap ++ second.toList)

/-- A directive is read back from any of its spellings. -/
theorem Written.ofDirective?_eq {kind : Kind} {cs : List Char} (h : Written kind cs) :
    Kind.ofDirective? (String.ofList cs) = some kind := by
  unfold Kind.ofDirective?
  rw [String.toList_ofList]
  cases h with
  | one h => cases kind <;> cases h <;> rfl
  | two h hgap =>
    cases kind <;> cases h
    · rw [Text.words_append_gap (by decide) (by rfl) hgap]
      rfl
    · rw [Text.words_append_gap (by decide) (by rfl) hgap]
      rfl
    · rw [Text.words_append_gap (by decide) (by rfl) hgap]
      rfl

/-! ### Preambles and endings -/

/-- **Preambles**: blanks, the opener of the style, blanks, the number sign and the directive. -/
def IsPreamble (family : Family) (kind : Kind) (cs : List Char) : Prop :=
  ∃ indent blanks directive, Text.IsBlanks indent ∧ Text.IsBlanks blanks ∧ Written kind directive ∧
    cs = indent ++ family.opener ++ blanks ++ '#' :: directive

/-- **Endings** of a marker, and what is left of the line behind them. -/
inductive Ending (family : Family) : List Char → List Char → Prop where
  /-- The line style ends with the line. -/
  | line {lineBreak : List Char} (h : family.closer? = none)
      (hbreak : isLineBreak lineBreak = true ∨ lineBreak = []) : Ending family lineBreak []
  /-- The closer, and what follows if it is blanks and a line break. -/
  | whole {closer blanks lineBreak : List Char} (h : family.closer? = some closer)
      (hblanks : Text.IsBlanks blanks) (hbreak : isLineBreak lineBreak = true) :
      Ending family (closer ++ (blanks ++ lineBreak)) []
  /-- The closer alone. -/
  | part {closer rest : List Char} (h : family.closer? = some closer)
      (hrest : ∀ blanks lineBreak, Text.IsBlanks blanks → isLineBreak lineBreak = true →
        rest ≠ blanks ++ lineBreak) : Ending family closer rest

/-- Where a condition ends. In the line style, it has no line break and no carriage return behind
its first character. In the other styles, no closer begins earlier behind its first character than
the one at the start of `tail`. -/
def Fits (family : Family) (more blanks tail : List Char) : Prop :=
  match family.closer? with
  | none => '\r' ∉ more ∧ '\n' ∉ more
  | some closer => ∀ before rest, more ++ blanks ++ tail = before ++ closer ++ rest →
      (more ++ blanks).length ≤ before.length

/-! ### Lines with markers -/

/-- **Lines that begin with a start marker**, in their parts. -/
structure StartLine (family : Family) where
  kind : Kind
  preamble : List Char
  gap : List Char
  /-- The first character of the condition, and the others. -/
  first : Char
  more : List Char
  blanks : List Char
  ending : List Char
  rest : List Char
  opens : kind.opens = true
  isPreamble : IsPreamble family kind preamble
  isGap : Text.IsGap gap
  visible : isWhiteSpace first = false
  isBlanks : Text.IsBlanks blanks
  isEnding : Ending family ending rest
  fits : Fits family more blanks (ending ++ rest)

namespace StartLine

variable {family : Family}

/-- What stands before the condition. -/
def lead (s : StartLine family) : List Char :=
  s.preamble ++ s.gap

/-- The condition without white space at its end. -/
def condition (s : StartLine family) : List Char :=
  Text.trimEnd (s.first :: s.more)

/-- The whole line. -/
def text (s : StartLine family) : List Char :=
  s.lead ++ (s.first :: s.more ++ s.blanks ++ (s.ending ++ s.rest))

/-- The marker, counted from the start of the line. -/
def marker (s : StartLine family) : Marker where
  kind := s.kind
  span := ⟨0, Text.byteLength (s.lead ++ (s.first :: s.more ++ s.blanks ++ s.ending))⟩
  condition := some ⟨String.ofList s.condition,
    ⟨Text.byteLength s.lead, Text.byteLength s.lead + Text.byteLength s.condition⟩⟩

end StartLine

/-- **Lines that begin with an end marker**, in their parts. -/
structure EndLine (family : Family) where
  kind : Kind
  preamble : List Char
  blanks : List Char
  ending : List Char
  rest : List Char
  closes : kind.opens = false
  isPreamble : IsPreamble family kind preamble
  isBlanks : Text.IsBlanks blanks
  isEnding : Ending family ending rest

namespace EndLine

variable {family : Family}

/-- The whole line. -/
def text (s : EndLine family) : List Char :=
  s.preamble ++ (s.blanks ++ (s.ending ++ s.rest))

/-- The marker, counted from the start of the line. -/
def marker (s : EndLine family) : Marker where
  kind := s.kind
  span := ⟨0, Text.byteLength (s.preamble ++ (s.blanks ++ s.ending))⟩
  condition := none

end EndLine

/-! ### Recognising the parts -/

theorem isPrefixOf?_append (start rest : List Char) :
    start.isPrefixOf? (start ++ rest) = some rest :=
  List.isPrefixOf?_eq_some_iff_append_eq.mpr rfl

theorem afterBlanks?_eq_some_iff {cs rest : List Char} :
    afterBlanks? cs = some rest ↔
      ∃ gap, Text.IsGap gap ∧ cs = gap ++ rest ∧ Text.skipBlanks rest = rest := by
  constructor
  · intro h
    cases cs with
    | nil => cases h
    | cons c cs =>
      rw [afterBlanks?] at h
      split at h
      · next hc =>
        obtain rfl := Option.some.inj h
        obtain ⟨blanks, hblanks, hcs, -⟩ := Text.skipBlanks_cases cs
        refine ⟨c :: blanks, ⟨List.forall_mem_cons.mpr ⟨hc, hblanks⟩, List.cons_ne_nil _ _⟩, ?_,
          List.dropWhile_idempotent isBlank cs⟩
        rw [List.cons_append, ← hcs]
      · cases h
  · rintro ⟨gap, ⟨hblanks, hne⟩, rfl, hrest⟩
    cases gap with
    | nil => exact absurd rfl hne
    | cons c gap =>
      obtain ⟨hc, hgap⟩ := List.forall_mem_cons.mp hblanks
      rw [List.cons_append, afterBlanks?, if_pos hc, Text.skipBlanks_append hgap, hrest]

/-- An opener does not begin with a blank. -/
theorem skipBlanks_opener (family : Family) (cs : List Char) :
    Text.skipBlanks (family.opener ++ cs) = family.opener ++ cs := by
  cases family <;> rfl

theorem afterHash?_eq_some_iff {family : Family} {line rest : List Char} :
    afterHash? family line = some rest ↔ ∃ indent blanks, Text.IsBlanks indent ∧
      Text.IsBlanks blanks ∧ line = indent ++ family.opener ++ blanks ++ '#' :: rest := by
  constructor
  · intro h
    obtain ⟨body, hbody, hrest⟩ := Option.bind_eq_some_iff.mp h
    obtain ⟨indent, hindent, hline, -⟩ := Text.skipBlanks_cases line
    obtain ⟨blanks, hblanks, hcs, -⟩ := Text.skipBlanks_cases body
    rw [← List.isPrefixOf?_eq_some_iff_append_eq.mp hbody] at hline
    rw [← List.isPrefixOf?_eq_some_iff_append_eq.mp hrest] at hcs
    refine ⟨indent, blanks, hindent, hblanks, ?_⟩
    rw [hline, hcs]
    simp only [List.append_assoc, List.singleton_append]
  · rintro ⟨indent, blanks, hindent, hblanks, rfl⟩
    have hskip : Text.skipBlanks (blanks ++ '#' :: rest) = '#' :: rest := by
      rw [Text.skipBlanks_append hblanks]
      exact Text.skipBlanks_cons (by decide) rest
    unfold afterHash?
    rw [List.append_assoc, List.append_assoc, Text.skipBlanks_append hindent, skipBlanks_opener,
      isPrefixOf?_append]
    show ['#'].isPrefixOf? (Text.skipBlanks (blanks ++ '#' :: rest)) = some rest
    rw [hskip]
    exact isPrefixOf?_append ['#'] rest

/-- The words behind a gap are read, if they do not begin with a blank. -/
theorem afterBlanks?_gap {gap : List Char} (hgap : Text.IsGap gap) {words : List Char}
    (hwords : Text.skipBlanks words = words) : afterBlanks? (gap ++ words) = some words :=
  afterBlanks?_eq_some_iff.mpr ⟨gap, hgap, rfl, hwords⟩

/-- Two words that are read with a gap between them are a written directive. -/
theorem written_of_two {kind : Kind} {first second : String} {cs region words rest : List Char}
    (hkind : kind.words = [first, second]) (hfirst : first.toList.isPrefixOf? cs = some region)
    (hwords : afterBlanks? region = some words)
    (hsecond : second.toList.isPrefixOf? words = some rest) :
    ∃ directive, Written kind directive ∧ cs = directive ++ rest := by
  obtain ⟨gap, hgap, hregion, -⟩ := afterBlanks?_eq_some_iff.mp hwords
  refine ⟨_, .two hkind hgap, ?_⟩
  rw [← List.isPrefixOf?_eq_some_iff_append_eq.mp hfirst, hregion,
    ← List.isPrefixOf?_eq_some_iff_append_eq.mp hsecond]
  simp only [List.append_assoc]

/-- A start directive of two words. -/
theorem startDirective?_region {gap : List Char} (hgap : Text.IsGap gap) {words : List Char}
    (hwords : Text.skipBlanks words = words) :
    startDirective? ("region".toList ++ (gap ++ words)) =
      match "ifdef".toList.isPrefixOf? words with
      | some rest => some (.regionIfdef, rest)
      | none =>
        ("ifndef".toList.isPrefixOf? words).bind fun rest => some (.regionIfndef, rest) := by
  unfold startDirective?
  rw [isPrefixOf?_append]
  show (afterBlanks? (gap ++ words)).bind _ = _
  rw [afterBlanks?_gap hgap hwords]
  rfl

theorem startDirective?_eq_some_iff {cs rest : List Char} {kind : Kind} :
    startDirective? cs = some (kind, rest) ↔
      kind.opens = true ∧ ∃ directive, Written kind directive ∧ cs = directive ++ rest := by
  constructor
  · intro h
    unfold startDirective? at h
    split at h
    · next r hr =>
      obtain ⟨rfl, rfl⟩ := Prod.mk.inj (Option.some.inj h)
      exact ⟨rfl, _, .one rfl, (List.isPrefixOf?_eq_some_iff_append_eq.mp hr).symm⟩
    · split at h
      · next r hr =>
        obtain ⟨rfl, rfl⟩ := Prod.mk.inj (Option.some.inj h)
        exact ⟨rfl, _, .one rfl, (List.isPrefixOf?_eq_some_iff_append_eq.mp hr).symm⟩
      · -- two words
        obtain ⟨region, hregion, h⟩ := Option.bind_eq_some_iff.mp h
        obtain ⟨words, hwords, h⟩ := Option.bind_eq_some_iff.mp h
        split at h
        · next r hr =>
          obtain ⟨rfl, rfl⟩ := Prod.mk.inj (Option.some.inj h)
          exact ⟨rfl, written_of_two rfl hregion hwords hr⟩
        · obtain ⟨r, hr, h⟩ := Option.bind_eq_some_iff.mp h
          obtain ⟨rfl, rfl⟩ := Prod.mk.inj (Option.some.inj h)
          exact ⟨rfl, written_of_two rfl hregion hwords hr⟩
  · rintro ⟨hopens, directive, hwritten, rfl⟩
    cases hwritten with
    | one h =>
      cases kind <;> cases h <;> first | rfl | cases hopens
    | @two first second gap h hgap =>
      cases kind <;> cases h
      · rw [List.append_assoc, List.append_assoc, startDirective?_region hgap rfl]
        rfl
      · rw [List.append_assoc, List.append_assoc, startDirective?_region hgap rfl]
        rfl
      · cases hopens

theorem endDirective?_eq_some_iff {cs rest : List Char} {kind : Kind} :
    endDirective? cs = some (kind, rest) ↔
      kind.opens = false ∧ ∃ directive, Written kind directive ∧ cs = directive ++ rest := by
  constructor
  · intro h
    unfold endDirective? at h
    split at h
    · next r hr =>
      obtain ⟨rfl, rfl⟩ := Prod.mk.inj (Option.some.inj h)
      exact ⟨rfl, _, .one rfl, (List.isPrefixOf?_eq_some_iff_append_eq.mp hr).symm⟩
    · obtain ⟨region, hregion, h⟩ := Option.bind_eq_some_iff.mp h
      obtain ⟨words, hwords, h⟩ := Option.bind_eq_some_iff.mp h
      obtain ⟨r, hr, h⟩ := Option.bind_eq_some_iff.mp h
      obtain ⟨rfl, rfl⟩ := Prod.mk.inj (Option.some.inj h)
      exact ⟨rfl, written_of_two rfl hregion hwords hr⟩
  · rintro ⟨hcloses, directive, hwritten, rfl⟩
    cases hwritten with
    | one h => cases kind <;> cases h <;> first | rfl | cases hcloses
    | @two first second gap h hgap =>
      cases kind <;> cases h
      · cases hcloses
      · cases hcloses
      · have hwords : Text.skipBlanks ("endif".toList ++ rest) = "endif".toList ++ rest := rfl
        rw [List.append_assoc, List.append_assoc]
        unfold endDirective?
        rw [isPrefixOf?_append]
        show (afterBlanks? (gap ++ ("endif".toList ++ rest))).bind _ = _
        rw [afterBlanks?_gap hgap hwords]
        rfl

/-! ### Recognising the ending -/

theorem isLineBreak_iff {cs : List Char} :
    isLineBreak cs = true ↔ cs = ['\n'] ∨ cs = ['\r', '\n'] := by
  unfold isLineBreak
  rw [Bool.or_eq_true, beq_iff_eq, beq_iff_eq]

/-- A line break does not begin with a blank. -/
theorem skipBlanks_lineBreak {cs : List Char} (h : isLineBreak cs = true) :
    Text.skipBlanks cs = cs := by
  rcases isLineBreak_iff.mp h with rfl | rfl <;> rfl

/-- What follows a closer is blanks and a line break, or it is not. -/
theorem isLineBreak_skipBlanks_iff {rest : List Char} :
    isLineBreak (Text.skipBlanks rest) = true ↔
      ∃ blanks lineBreak, Text.IsBlanks blanks ∧ isLineBreak lineBreak = true ∧
        rest = blanks ++ lineBreak := by
  constructor
  · intro h
    obtain ⟨blanks, hblanks, hrest, -⟩ := Text.skipBlanks_cases rest
    exact ⟨blanks, _, hblanks, h, hrest⟩
  · rintro ⟨blanks, lineBreak, hblanks, hbreak, rfl⟩
    rw [Text.skipBlanks_append hblanks, skipBlanks_lineBreak hbreak]
    exact hbreak

/-- A closer begins an ending, whatever follows it. -/
theorem ending_of_closer {family : Family} {closer : List Char}
    (hcloser : family.closer? = some closer) (rest : List Char) :
    ∃ ending, Ending family ending (afterCloser rest) ∧
      closer ++ rest = ending ++ afterCloser rest := by
  unfold afterCloser
  split
  · next h =>
    obtain ⟨blanks, lineBreak, hblanks, hbreak, rfl⟩ := isLineBreak_skipBlanks_iff.mp h
    exact ⟨_, .whole hcloser hblanks hbreak, (List.append_nil _).symm⟩
  · next h =>
    refine ⟨closer, .part hcloser fun blanks lineBreak hblanks hbreak heq => h ?_, rfl⟩
    exact isLineBreak_skipBlanks_iff.mpr ⟨blanks, lineBreak, hblanks, hbreak, heq⟩

/-- In a style with a closer, an ending begins with it. -/
theorem Ending.closer {family : Family} {ending rest closer : List Char}
    (h : Ending family ending rest) (hcloser : family.closer? = some closer) :
    ∃ after, ending ++ rest = closer ++ after ∧ afterCloser after = rest := by
  cases h with
  | line hnone _ =>
    rw [hcloser] at hnone
    cases hnone
  | @whole closer' blanks lineBreak hcloser' hblanks hbreak =>
    obtain rfl : closer = closer' := Option.some.inj (hcloser.symm.trans hcloser')
    refine ⟨blanks ++ lineBreak, List.append_nil _, ?_⟩
    unfold afterCloser
    exact if_pos (isLineBreak_skipBlanks_iff.mpr ⟨blanks, lineBreak, hblanks, hbreak, rfl⟩)
  | part hcloser' hrest =>
    obtain rfl := Option.some.inj (hcloser.symm.trans hcloser')
    refine ⟨rest, rfl, ?_⟩
    unfold afterCloser
    refine if_neg fun hbreak => ?_
    obtain ⟨blanks, lineBreak, hblanks, hbreak, heq⟩ := isLineBreak_skipBlanks_iff.mp hbreak
    exact hrest blanks lineBreak hblanks hbreak heq

/-- In a style without a closer, an ending is a line break or nothing, and nothing is left. -/
theorem Ending.lineBreak {family : Family} {ending rest : List Char} (h : Ending family ending rest)
    (hcloser : family.closer? = none) :
    (isLineBreak ending = true ∨ ending = []) ∧ rest = [] := by
  cases h with
  | line _ hbreak => exact ⟨hbreak, rfl⟩
  | whole hsome _ _ =>
    rw [hcloser] at hsome
    cases hsome
  | part hsome _ =>
    rw [hcloser] at hsome
    cases hsome

theorem afterEnd?_eq_some_iff {family : Family} {cs after : List Char} :
    afterEnd? family cs = some after ↔ ∃ blanks ending, Text.IsBlanks blanks ∧
      Ending family ending after ∧ cs = blanks ++ (ending ++ after) := by
  obtain ⟨blanks, hblanks, hcs, -⟩ := Text.skipBlanks_cases cs
  cases hcloser : family.closer? with
  | none =>
    constructor
    · intro h
      unfold afterEnd? at h
      rw [hcloser] at h
      dsimp only at h
      split at h
      · next hend =>
        obtain rfl := Option.some.inj h
        refine ⟨blanks, Text.skipBlanks cs, hblanks,
          .line hcloser ?_, by rw [List.append_nil, ← hcs]⟩
        rw [Bool.or_eq_true, List.isEmpty_iff] at hend
        exact hend.symm
      · cases h
    · rintro ⟨blanks', ending, hblanks', hending, rfl⟩
      obtain ⟨hbreak, rfl⟩ := hending.lineBreak hcloser
      have hskip : Text.skipBlanks ending = ending := by
        rcases hbreak with hbreak | rfl
        · exact skipBlanks_lineBreak hbreak
        · rfl
      unfold afterEnd?
      rw [hcloser, List.append_nil, Text.skipBlanks_append hblanks', hskip]
      refine if_pos ?_
      rw [Bool.or_eq_true, List.isEmpty_iff]
      exact hbreak.symm
  | some closer =>
    constructor
    · intro h
      unfold afterEnd? at h
      rw [hcloser] at h
      obtain ⟨rest, hrest, rfl⟩ := Option.map_eq_some_iff.mp h
      obtain ⟨ending, hending, heq⟩ := ending_of_closer hcloser rest
      refine ⟨blanks, ending, hblanks, hending, ?_⟩
      rw [← heq, List.isPrefixOf?_eq_some_iff_append_eq.mp hrest, ← hcs]
    · rintro ⟨blanks', ending, hblanks', hending, rfl⟩
      obtain ⟨rest, heq, rfl⟩ := hending.closer hcloser
      have hskip : Text.skipBlanks (closer ++ rest) = closer ++ rest := by
        cases family <;> cases hcloser <;> rfl
      unfold afterEnd?
      rw [hcloser, heq, Text.skipBlanks_append hblanks', hskip]
      dsimp only
      rw [isPrefixOf?_append]
      rfl

/-! ### Recognising the condition -/

/-- A line without its line break, and the line break. -/
theorem dropLineBreak_cases (cs : List Char) :
    ∃ lineBreak, cs = dropLineBreak cs ++ lineBreak ∧
      (isLineBreak lineBreak = true ∨ lineBreak = [] ∧ cs.getLast? ≠ some '\n') := by
  unfold dropLineBreak
  split
  · next rest h =>
    refine ⟨['\r', '\n'], ?_, .inl rfl⟩
    rw [← List.reverse_reverse cs, h]
    simp
  · next rest hne h =>
    refine ⟨['\n'], ?_, .inl rfl⟩
    rw [← List.reverse_reverse cs, h]
    simp
  · -- a line feed at the end would have been taken
    next h1 h2 =>
    refine ⟨[], (List.append_nil _).symm, .inr ⟨rfl, fun hlast => ?_⟩⟩
    rw [← List.head?_reverse, List.head?_eq_some_iff] at hlast
    obtain ⟨rest, hrest⟩ := hlast
    exact h2 rest hrest

/-- What has neither carriage returns nor line feeds is found again before a line break. -/
theorem dropLineBreak_append {body lineBreak : List Char} (hreturn : '\r' ∉ body)
    (hfeed : '\n' ∉ body) (h : isLineBreak lineBreak = true ∨ lineBreak = []) :
    dropLineBreak (body ++ lineBreak) = body := by
  unfold dropLineBreak
  rcases h with h | rfl
  · rcases isLineBreak_iff.mp h with rfl | rfl
    · split
      · -- a carriage return before the line feed would be one of the body
        next rest heq =>
        refine absurd ?_ hreturn
        rw [← List.mem_reverse]
        rw [List.reverse_append, List.reverse_singleton, List.singleton_append] at heq
        rw [(List.cons.inj heq).2]
        exact List.mem_cons_self
      · next rest _ heq =>
        rw [List.reverse_append, List.reverse_singleton, List.singleton_append] at heq
        rw [← (List.cons.inj heq).2, List.reverse_reverse]
      · next h1 h2 => exact absurd (List.reverse_concat ..) (h2 body.reverse)
    · rw [List.reverse_append]
      exact List.reverse_reverse body
  · rw [List.append_nil]
    have hhead : ∀ rest, body.reverse ≠ '\n' :: rest := by
      intro rest heq
      refine hfeed (List.mem_reverse.mp ?_)
      rw [heq]
      exact List.mem_cons_self
    split
    · next heq => exact absurd heq (hhead _)
    · next heq => exact absurd heq (hhead _)
    · rfl

/-- On a line, there is no line feed before the line break. -/
theorem not_mem_dropLineBreak {line : List Char} (h : '\n' ∉ line.dropLast) :
    '\n' ∉ dropLineBreak line := by
  intro hmem
  obtain ⟨lineBreak, hline, hbreak⟩ := dropLineBreak_cases line
  rcases hbreak with hbreak | ⟨rfl, hlast⟩
  · have hne : lineBreak ≠ [] := by
      rintro rfl
      cases hbreak
    rw [hline, List.dropLast_append_of_ne_nil hne] at h
    exact h (List.mem_append_left _ hmem)
  · rw [List.append_nil] at hline
    rw [← hline] at hmem
    -- a line feed that is not before the last character is the last character
    have hne : line ≠ [] := List.ne_nil_of_mem hmem
    rw [← List.dropLast_append_getLast hne, List.mem_append, List.mem_singleton] at hmem
    rcases hmem with hmem | hmem
    · exact h hmem
    · exact hlast (by rw [List.getLast?_eq_some_getLast hne, hmem])

theorem not_lineBreak_of_visible {c : Char} (hc : isWhiteSpace c = false) :
    c ≠ '\r' ∧ c ≠ '\n' := by
  constructor <;> rintro rfl <;> exact absurd hc (by decide)

/-- **The parts of a condition** that is recognised on a line. -/
theorem parts_of_condition? {family : Family} {cs condition after : List Char}
    (hline : '\n' ∉ cs.dropLast) (h : condition? family cs = some (condition, after)) :
    ∃ first more ending, cs = first :: more ++ (ending ++ after) ∧ isWhiteSpace first = false ∧
      Ending family ending after ∧ Fits family more [] (ending ++ after) ∧
      Text.trimEnd condition = Text.trimEnd (first :: more) := by
  cases cs with
  | nil => cases h
  | cons first tail =>
    rw [condition?] at h
    split at h
    · cases h
    · next hfirst =>
      rw [Bool.not_eq_true] at hfirst
      unfold Fits
      cases hcloser : family.closer? with
      | none =>
        rw [hcloser] at h
        dsimp only at h
        split at h
        · cases h
        · next hreturn =>
          obtain ⟨rfl, rfl⟩ := Prod.mk.inj (Option.some.inj h)
          rw [List.contains_iff_mem] at hreturn
          obtain ⟨lineBreak, hcs, hbreak⟩ := dropLineBreak_cases (first :: tail)
          have hfeed := not_mem_dropLineBreak hline
          -- the first character is no part of the line break
          obtain ⟨more, hbody⟩ : ∃ more, dropLineBreak (first :: tail) = first :: more := by
            cases hbody : dropLineBreak (first :: tail) with
            | cons c more =>
              rw [hbody, List.cons_append] at hcs
              exact ⟨more, by rw [(List.cons.inj hcs).1]⟩
            | nil =>
              rw [hbody, List.nil_append] at hcs
              have hfirst' := not_lineBreak_of_visible hfirst
              rcases hbreak with hbreak | ⟨rfl, -⟩
              · rw [← hcs, isLineBreak_iff] at hbreak
                rcases hbreak with hbreak | hbreak
                · exact absurd (List.cons.inj hbreak).1 hfirst'.2
                · exact absurd (List.cons.inj hbreak).1 hfirst'.1
              · cases hcs
          rw [hbody] at hcs hreturn hfeed ⊢
          refine ⟨first, more, lineBreak, ?_, hfirst, .line hcloser (hbreak.imp_right And.left),
            ⟨fun hmem => hreturn (List.mem_cons_of_mem _ hmem),
              fun hmem => hfeed (List.mem_cons_of_mem _ hmem)⟩, Text.trimEnd_trimBlanksEnd _⟩
          rw [List.append_nil, hcs]
      | some closer =>
        -- the search begins behind the first character
        rw [hcloser] at h
        obtain ⟨⟨before, rest⟩, hsplit, heq⟩ := Option.map_eq_some_iff.mp h
        obtain ⟨rfl, rfl⟩ := Prod.mk.inj heq
        obtain ⟨rfl, hearliest⟩ := Text.splitAtFirst_eq_some_iff.mp hsplit
        obtain ⟨ending, hending, hrest⟩ := ending_of_closer hcloser rest
        refine ⟨first, before, ending, ?_, hfirst, hending, ?_, Text.trimEnd_trimBlanksEnd _⟩
        · rw [← hrest, List.cons_append, List.append_assoc]
        · intro before' rest' h'
          rw [List.append_nil, ← hrest, ← List.append_assoc] at h'
          rw [List.append_nil]
          exact hearliest before' rest' h'

/-- **A condition is recognised** by its parts. -/
theorem condition?_of_parts {family : Family} {first : Char} {more blanks ending rest : List Char}
    (hfirst : isWhiteSpace first = false) (hblanks : Text.IsBlanks blanks)
    (hending : Ending family ending rest) (hfits : Fits family more blanks (ending ++ rest)) :
    ∃ condition, condition? family (first :: more ++ blanks ++ (ending ++ rest)) =
      some (condition, rest) ∧ Text.trimEnd condition = Text.trimEnd (first :: more) := by
  have htrim : Text.trimEnd (Text.trimBlanksEnd (first :: more ++ blanks)) =
      Text.trimEnd (first :: more) := by
    rw [Text.trimEnd_trimBlanksEnd, Text.trimEnd_append_blanks hblanks]
  refine ⟨_, ?_, htrim⟩
  unfold Fits at hfits
  rw [List.cons_append, List.cons_append, condition?, if_neg (Bool.eq_false_iff.mp hfirst)]
  cases hcloser : family.closer? with
  | none =>
    obtain ⟨hbreak, rfl⟩ := hending.lineBreak hcloser
    rw [hcloser] at hfits
    -- neither the condition nor the blanks have a part of a line break
    have hother : ∀ c, isBlank c = false → c ≠ first → c ∉ more → c ∉ first :: more ++ blanks := by
      intro c hc hne hmore hmem
      rcases List.mem_append.mp hmem with hmem | hmem
      · rcases List.mem_cons.mp hmem with rfl | hmem
        · exact hne rfl
        · exact hmore hmem
      · rw [hblanks c hmem] at hc
        cases hc
    have hreturn := hother '\r' (by decide) (not_lineBreak_of_visible hfirst).1.symm hfits.1
    have hfeed := hother '\n' (by decide) (not_lineBreak_of_visible hfirst).2.symm hfits.2
    dsimp only
    rw [List.append_nil, ← List.cons_append, ← List.cons_append,
      dropLineBreak_append hreturn hfeed hbreak, if_neg (by rwa [List.contains_iff_mem])]
  | some closer =>
    obtain ⟨after, heq, rfl⟩ := hending.closer hcloser
    rw [hcloser, heq] at hfits
    have hsplit : Text.splitAtFirst closer (more ++ blanks ++ (closer ++ after)) =
        some (more ++ blanks, after) := by
      refine Text.splitAtFirst_eq_some_iff.mpr ⟨(List.append_assoc ..).symm, hfits⟩
    dsimp only
    rw [heq, hsplit]
    rfl

/-! ### Recognising a line -/

theorem not_mem_dropLast_of_append {c : Char} {xs ys : List Char} (h : c ∉ (xs ++ ys).dropLast) :
    c ∉ ys.dropLast := by
  cases ys with
  | nil => exact List.not_mem_nil
  | cons y ys =>
    rw [List.dropLast_append_of_ne_nil (List.cons_ne_nil y ys)] at h
    exact fun hmem => h (List.mem_append_right _ hmem)

/-- What follows a preamble is what follows its directive. -/
theorem afterHash?_of_isPreamble {family : Family} {kind : Kind} {preamble : List Char}
    (h : IsPreamble family kind preamble) (rest : List Char) :
    ∃ directive, Written kind directive ∧
      afterHash? family (preamble ++ rest) = some (directive ++ rest) := by
  obtain ⟨indent, blanks, directive, hindent, hblanks, hwritten, rfl⟩ := h
  refine ⟨directive, hwritten, afterHash?_eq_some_iff.mpr ⟨indent, blanks, hindent, hblanks, ?_⟩⟩
  simp only [List.append_assoc, List.cons_append]

theorem isPreamble_of_afterHash? {family : Family} {kind : Kind} {line directive rest : List Char}
    (h : afterHash? family line = some (directive ++ rest)) (hwritten : Written kind directive) :
    ∃ preamble, IsPreamble family kind preamble ∧ line = preamble ++ rest := by
  obtain ⟨indent, blanks, hindent, hblanks, rfl⟩ := afterHash?_eq_some_iff.mp h
  refine ⟨_, ⟨indent, blanks, directive, hindent, hblanks, hwritten, rfl⟩, ?_⟩
  simp only [List.append_assoc, List.cons_append]

/-- The marker of a line by what is left of the line where its parts begin, as the recogniser has
it. -/
theorem StartLine.marker_eq {family : Family} (s : StartLine family) :
    let body := s.first :: s.more ++ s.blanks ++ (s.ending ++ s.rest)
    let offset := Text.byteLength s.text - Text.byteLength body
    s.marker = {
      kind := s.kind
      span := ⟨0, Text.byteLength s.text - Text.byteLength s.rest⟩
      condition := some ⟨String.ofList s.condition,
        ⟨offset, offset + Text.byteLength s.condition⟩⟩ } := by
  intro body offset
  have hoffset : offset = Text.byteLength s.lead := by
    show Text.byteLength (s.lead ++ body) - Text.byteLength body = _
    rw [Text.byteLength_append, Nat.add_sub_cancel]
  have hstop : Text.byteLength s.text - Text.byteLength s.rest =
      Text.byteLength (s.lead ++ (s.first :: s.more ++ s.blanks ++ s.ending)) := by
    unfold StartLine.text
    simp only [Text.byteLength_append]
    omega
  rw [hoffset, hstop]
  rfl

/-- **Start markers of a line.** The recogniser finds the start markers of lines of the right shape,
and no others. -/
theorem startOnLine?_eq_some_iff {family : Family} {line : List Char} {m : Marker}
    (hline : '\n' ∉ line.dropLast) :
    startOnLine? family line = some m ↔ ∃ s : StartLine family, s.text = line ∧ s.marker = m := by
  constructor
  · intro h
    obtain ⟨cs, hcs, h⟩ := Option.bind_eq_some_iff.mp h
    obtain ⟨⟨kind, rest⟩, hkind, h⟩ := Option.bind_eq_some_iff.mp h
    obtain ⟨body, hbody, h⟩ := Option.bind_eq_some_iff.mp h
    obtain ⟨⟨condition, after⟩, hcondition, h⟩ := Option.bind_eq_some_iff.mp h
    obtain rfl := Option.some.inj h
    -- the parts, from the left
    obtain ⟨hopens, directive, hwritten, rfl⟩ := startDirective?_eq_some_iff.mp hkind
    obtain ⟨gap, hgap, rfl, -⟩ := afterBlanks?_eq_some_iff.mp hbody
    obtain ⟨preamble, hpreamble, rfl⟩ := isPreamble_of_afterHash? hcs hwritten
    have hbodyline := not_mem_dropLast_of_append (not_mem_dropLast_of_append hline)
    obtain ⟨first, more, ending, rfl, hfirst, hending, hfits, htrim⟩ :=
      parts_of_condition? hbodyline hcondition
    -- the blanks before the ending count as part of the condition: trimming takes them
    let s : StartLine family :=
      { kind, preamble, gap, first, more, blanks := [], ending, rest := after, opens := hopens,
        isPreamble := hpreamble, isGap := hgap, visible := hfirst, isBlanks := .nil,
        isEnding := hending, fits := hfits }
    have hbody' : s.first :: s.more ++ s.blanks ++ (s.ending ++ s.rest) =
        first :: more ++ (ending ++ after) := by
      rw [List.append_nil]
    have htext : s.text = preamble ++ (gap ++ (first :: more ++ (ending ++ after))) := by
      unfold StartLine.text StartLine.lead
      rw [hbody', List.append_assoc]
    refine ⟨s, htext, ?_⟩
    rw [s.marker_eq, htext, hbody', htrim]
    rfl
  · rintro ⟨s, rfl, rfl⟩
    set body := s.first :: s.more ++ s.blanks ++ (s.ending ++ s.rest) with hbody
    have htext : s.text = s.preamble ++ (s.gap ++ body) := List.append_assoc ..
    obtain ⟨directive, hwritten, hhash⟩ := afterHash?_of_isPreamble s.isPreamble (s.gap ++ body)
    have hdirective : startDirective? (directive ++ (s.gap ++ body)) =
        some (s.kind, s.gap ++ body) :=
      startDirective?_eq_some_iff.mpr ⟨s.opens, directive, hwritten, rfl⟩
    have hblanks : afterBlanks? (s.gap ++ body) = some body := by
      -- the condition does not begin with a blank
      refine afterBlanks?_gap s.isGap (Text.skipBlanks_cons ?_ _)
      refine Bool.eq_false_iff.mpr fun hblank => ?_
      exact Bool.eq_false_iff.mp s.visible (isWhiteSpace_of_isBlank hblank)
    obtain ⟨condition, hcondition, htrim⟩ :=
      condition?_of_parts s.visible s.isBlanks s.isEnding s.fits
    rw [← hbody] at hcondition
    unfold startOnLine?
    rw [htext, hhash]
    simp only [Option.bind_eq_bind, Option.bind_some, hdirective, hblanks, hcondition]
    rw [s.marker_eq, ← hbody, htext, htrim]
    rfl

/-- **End markers of a line.** -/
theorem endOnLine?_eq_some_iff {family : Family} {line : List Char} {m : Marker} :
    endOnLine? family line = some m ↔ ∃ s : EndLine family, s.text = line ∧ s.marker = m := by
  have hmarker : ∀ s : EndLine family,
      s.marker = ⟨s.kind, ⟨0, Text.byteLength s.text - Text.byteLength s.rest⟩, none⟩ := by
    intro s
    unfold EndLine.marker EndLine.text
    simp only [Text.byteLength_append, Marker.mk.injEq, Span.mk.injEq, true_and, and_true]
    omega
  constructor
  · intro h
    obtain ⟨cs, hcs, h⟩ := Option.bind_eq_some_iff.mp h
    obtain ⟨⟨kind, rest⟩, hkind, h⟩ := Option.bind_eq_some_iff.mp h
    obtain ⟨after, hafter, h⟩ := Option.bind_eq_some_iff.mp h
    obtain rfl := Option.some.inj h
    obtain ⟨hcloses, directive, hwritten, rfl⟩ := endDirective?_eq_some_iff.mp hkind
    obtain ⟨blanks, ending, hblanks, hending, rfl⟩ := afterEnd?_eq_some_iff.mp hafter
    obtain ⟨preamble, hpreamble, rfl⟩ := isPreamble_of_afterHash? hcs hwritten
    refine ⟨⟨kind, preamble, blanks, ending, after, hcloses, hpreamble, hblanks, hending⟩, rfl, ?_⟩
    rw [hmarker]
    rfl
  · rintro ⟨s, rfl, rfl⟩
    set rest := s.blanks ++ (s.ending ++ s.rest) with hrest
    obtain ⟨directive, hwritten, hhash⟩ := afterHash?_of_isPreamble s.isPreamble rest
    have hdirective : endDirective? (directive ++ rest) = some (s.kind, rest) :=
      endDirective?_eq_some_iff.mpr ⟨s.closes, directive, hwritten, rfl⟩
    have hafter : afterEnd? family rest = some s.rest :=
      afterEnd?_eq_some_iff.mpr ⟨s.blanks, s.ending, s.isBlanks, s.isEnding, rfl⟩
    have htext : s.text = s.preamble ++ rest := rfl
    unfold endOnLine?
    rw [hmarker, htext, hhash]
    simp only [Option.bind_eq_bind, Option.bind_some, hdirective, hafter]
    rfl

/-- A line that begins with the start marker `m`. -/
def IsStartLine (family : Family) (line : List Char) (m : Marker) : Prop :=
  ∃ s : StartLine family, s.text = line ∧ s.marker = m

/-- A line that begins with the end marker `m`. -/
def IsEndLine (family : Family) (line : List Char) (m : Marker) : Prop :=
  ∃ s : EndLine family, s.text = line ∧ s.marker = m

end MarkerLine

end CondRegions
