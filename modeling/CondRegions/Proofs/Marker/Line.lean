import CondRegions.Proofs.Bracket.Word
import CondRegions.Proofs.Text.Bytes

/-!
# Markers on a line

What the recognisers of a line have in common, whatever the shape of the marker: each reads on from
where the one before stopped, so what is left in the end is a final segment of the line, and at
least the number sign has been read. A marker is therefore a non-empty initial segment of its line
(`MarkerLine.Heads`).

A line is a marker in one way at most. The styles are told apart by their openers
(`MarkerLine.afterHash?_family`), start and end markers by the first letter of the directive. So a
line has at most one bracket (`MarkerLine.bracket?`), whichever styles are looked for and in
whichever order (`MarkerLine.bracket?_eq_some_iff`).
-/

namespace CondRegions

namespace MarkerLine

/-! ### Reading on -/

theorem suffix_of_isPrefixOf? {start cs rest : List Char} (h : start.isPrefixOf? cs = some rest) :
    rest <:+ cs :=
  ⟨start, List.isPrefixOf?_eq_some_iff_append_eq.mp h⟩

theorem skipBlanks_suffix (cs : List Char) : Text.skipBlanks cs <:+ cs :=
  List.dropWhile_suffix _

theorem suffix_of_afterBlanks? {cs rest : List Char} (h : afterBlanks? cs = some rest) :
    rest <:+ cs := by
  cases cs with
  | nil => exact absurd h nofun
  | cons c cs =>
    rw [afterBlanks?] at h
    split at h
    · obtain rfl := Option.some.inj h
      exact (skipBlanks_suffix cs).trans (List.suffix_cons c cs)
    · exact absurd h nofun

/-- Reading up to the number sign: the opener of the style comes first, and something is read. -/
theorem afterHash?_eq_some {family : Family} {line rest : List Char}
    (h : afterHash? family line = some rest) :
    (∃ body, Text.skipBlanks line = family.opener ++ body) ∧ rest <:+ line ∧
      rest.length < line.length := by
  obtain ⟨body, hbody, hrest⟩ := Option.bind_eq_some_iff.mp h
  have hopener := List.isPrefixOf?_eq_some_iff_append_eq.mp hbody
  have hhash := List.isPrefixOf?_eq_some_iff_append_eq.mp hrest
  have h1 : rest <:+ Text.skipBlanks body := suffix_of_isPrefixOf? hrest
  have h2 : Text.skipBlanks body <:+ line :=
    (skipBlanks_suffix body).trans ((suffix_of_isPrefixOf? hbody).trans (skipBlanks_suffix line))
  refine ⟨⟨body, hopener.symm⟩, h1.trans h2, ?_⟩
  have hlen := congrArg List.length hhash
  have hle := h2.length_le
  simp only [List.length_append, List.length_singleton] at hlen
  omega

theorem suffix_of_startDirective? {cs rest : List Char} {kind : Kind}
    (h : startDirective? cs = some (kind, rest)) : rest <:+ cs := by
  rw [startDirective?] at h
  split at h
  · next r hr =>
    obtain ⟨-, rfl⟩ := Prod.mk.inj (Option.some.inj h)
    exact suffix_of_isPrefixOf? hr
  · split at h
    · next r hr =>
      obtain ⟨-, rfl⟩ := Prod.mk.inj (Option.some.inj h)
      exact suffix_of_isPrefixOf? hr
    -- the two words of a region directive
    · obtain ⟨region, hregion, h⟩ := Option.bind_eq_some_iff.mp h
      obtain ⟨words, hwords, h⟩ := Option.bind_eq_some_iff.mp h
      have hsuf : words <:+ cs :=
        (suffix_of_afterBlanks? hwords).trans (suffix_of_isPrefixOf? hregion)
      split at h
      · next r hr =>
        obtain ⟨-, rfl⟩ := Prod.mk.inj (Option.some.inj h)
        exact (suffix_of_isPrefixOf? hr).trans hsuf
      · obtain ⟨r, hr, h⟩ := Option.bind_eq_some_iff.mp h
        obtain ⟨-, rfl⟩ := Prod.mk.inj (Option.some.inj h)
        exact (suffix_of_isPrefixOf? hr).trans hsuf

theorem suffix_of_endDirective? {cs rest : List Char} {kind : Kind}
    (h : endDirective? cs = some (kind, rest)) : rest <:+ cs := by
  rw [endDirective?] at h
  split at h
  · next r hr =>
    obtain ⟨-, rfl⟩ := Prod.mk.inj (Option.some.inj h)
    exact suffix_of_isPrefixOf? hr
  · obtain ⟨region, hregion, h⟩ := Option.bind_eq_some_iff.mp h
    obtain ⟨words, hwords, h⟩ := Option.bind_eq_some_iff.mp h
    obtain ⟨r, hr, h⟩ := Option.bind_eq_some_iff.mp h
    obtain ⟨-, rfl⟩ := Prod.mk.inj (Option.some.inj h)
    exact (suffix_of_isPrefixOf? hr).trans
      ((suffix_of_afterBlanks? hwords).trans (suffix_of_isPrefixOf? hregion))

theorem suffix_of_splitAtFirst {needle cs before rest : List Char}
    (h : Text.splitAtFirst needle cs = some (before, rest)) : rest <:+ cs := by
  induction cs generalizing before with
  | nil =>
    rw [Text.splitAtFirst] at h
    split at h
    · obtain ⟨-, rfl⟩ := Prod.mk.inj (Option.some.inj h)
      exact List.suffix_refl _
    · exact absurd h nofun
  | cons c cs ih =>
    rw [Text.splitAtFirst] at h
    split at h
    · next r hr =>
      obtain ⟨-, rfl⟩ := Prod.mk.inj (Option.some.inj h)
      exact suffix_of_isPrefixOf? hr
    · obtain ⟨⟨before', rest'⟩, hsplit, h⟩ := Option.map_eq_some_iff.mp h
      obtain ⟨-, rfl⟩ := Prod.mk.inj h
      exact (ih hsplit).trans (List.suffix_cons c cs)

theorem afterCloser_suffix (rest : List Char) : afterCloser rest <:+ rest := by
  rw [afterCloser]
  split
  · exact List.nil_suffix
  · exact List.suffix_refl _

theorem suffix_of_condition? {family : Family} {cs condition after : List Char}
    (h : condition? family cs = some (condition, after)) : after <:+ cs := by
  cases cs with
  | nil => exact absurd h nofun
  | cons c more =>
    rw [condition?] at h
    split at h
    · exact absurd h nofun
    · split at h
      -- in the line style nothing is left of the line
      · dsimp only at h
        split at h
        · exact absurd h nofun
        · obtain ⟨-, rfl⟩ := Prod.mk.inj (Option.some.inj h)
          exact List.nil_suffix
      · obtain ⟨⟨before, rest⟩, hsplit, h⟩ := Option.map_eq_some_iff.mp h
        obtain ⟨-, rfl⟩ := Prod.mk.inj h
        exact (afterCloser_suffix rest).trans
          ((suffix_of_splitAtFirst hsplit).trans (List.suffix_cons c more))

theorem suffix_of_afterEnd? {family : Family} {cs after : List Char}
    (h : afterEnd? family cs = some after) : after <:+ cs := by
  rw [afterEnd?] at h
  split at h
  · split at h
    · obtain rfl := Option.some.inj h
      exact List.nil_suffix
    · exact absurd h nofun
  · obtain ⟨rest, hrest, rfl⟩ := Option.map_eq_some_iff.mp h
    exact (afterCloser_suffix rest).trans ((suffix_of_isPrefixOf? hrest).trans
      (skipBlanks_suffix cs))

/-! ### The marker of a line -/

/-- **Heads.** A marker covers a non-empty initial segment of its line. -/
def Heads (m : Marker) (line : List Char) : Prop :=
  ∃ marker after, line = marker ++ after ∧ marker ≠ [] ∧ m.span = ⟨0, Text.byteLength marker⟩

theorem heads_of_suffix {m : Marker} {line after : List Char} (hsuf : after <:+ line)
    (hlt : after.length < line.length)
    (hspan : m.span = ⟨0, Text.byteLength line - Text.byteLength after⟩) : Heads m line := by
  obtain ⟨marker, rfl⟩ := hsuf
  refine ⟨marker, after, rfl, ?_, ?_⟩
  · rintro rfl
    exact absurd hlt (Nat.lt_irrefl _)
  · rw [hspan, Text.byteLength_append, Nat.add_sub_cancel]

/-- What is known of a start marker on a line. -/
theorem startOnLine?_eq_some {family : Family} {line : List Char} {m : Marker}
    (h : startOnLine? family line = some m) :
    ∃ cs kind rest, afterHash? family line = some cs ∧ startDirective? cs = some (kind, rest) ∧
      m.kind = kind ∧ m.condition.isSome = true ∧ Heads m line := by
  obtain ⟨cs, hcs, h⟩ := Option.bind_eq_some_iff.mp h
  obtain ⟨⟨kind, rest⟩, hkind, h⟩ := Option.bind_eq_some_iff.mp h
  obtain ⟨body, hbody, h⟩ := Option.bind_eq_some_iff.mp h
  obtain ⟨⟨condition, after⟩, hcond, h⟩ := Option.bind_eq_some_iff.mp h
  obtain rfl := Option.some.inj h
  obtain ⟨-, hline, hlt⟩ := afterHash?_eq_some hcs
  have hsuf : after <:+ cs := (suffix_of_condition? hcond).trans
    ((suffix_of_afterBlanks? hbody).trans (suffix_of_startDirective? hkind))
  exact ⟨cs, kind, rest, hcs, hkind, rfl, rfl,
    heads_of_suffix (hsuf.trans hline) (Nat.lt_of_le_of_lt hsuf.length_le hlt) rfl⟩

/-- What is known of an end marker on a line. -/
theorem endOnLine?_eq_some {family : Family} {line : List Char} {m : Marker}
    (h : endOnLine? family line = some m) :
    ∃ cs kind rest, afterHash? family line = some cs ∧ endDirective? cs = some (kind, rest) ∧
      m.kind = kind ∧ m.condition = none ∧ Heads m line := by
  obtain ⟨cs, hcs, h⟩ := Option.bind_eq_some_iff.mp h
  obtain ⟨⟨kind, rest⟩, hkind, h⟩ := Option.bind_eq_some_iff.mp h
  obtain ⟨after, hafter, h⟩ := Option.bind_eq_some_iff.mp h
  obtain rfl := Option.some.inj h
  obtain ⟨-, hline, hlt⟩ := afterHash?_eq_some hcs
  have hsuf : after <:+ cs := (suffix_of_afterEnd? hafter).trans (suffix_of_endDirective? hkind)
  exact ⟨cs, kind, rest, hcs, hkind, rfl, rfl,
    heads_of_suffix (hsuf.trans hline) (Nat.lt_of_le_of_lt hsuf.length_le hlt) rfl⟩

/-! ### One marker a line -/

/-- A line is a comment of one style at most. -/
theorem afterHash?_family {F G : Family} {line cs ds : List Char}
    (hF : afterHash? F line = some cs) (hG : afterHash? G line = some ds) : F = G := by
  obtain ⟨⟨body, hbody⟩, -⟩ := afterHash?_eq_some hF
  obtain ⟨⟨body', hbody'⟩, -⟩ := afterHash?_eq_some hG
  have h : F.opener ++ body = G.opener ++ body' := by rw [← hbody, ← hbody']
  cases F <;> cases G <;> first | rfl | simp [Family.opener] at h

/-- The first letter of the directive of a start marker. -/
theorem head_of_startDirective? {cs rest : List Char} {kind : Kind}
    (h : startDirective? cs = some (kind, rest)) : cs.head? = some 'i' ∨ cs.head? = some 'r' := by
  rw [startDirective?] at h
  split at h
  · next r hr => exact .inl (by rw [← List.isPrefixOf?_eq_some_iff_append_eq.mp hr]; rfl)
  · split at h
    · next r hr => exact .inl (by rw [← List.isPrefixOf?_eq_some_iff_append_eq.mp hr]; rfl)
    · obtain ⟨region, hregion, -⟩ := Option.bind_eq_some_iff.mp h
      exact .inr (by rw [← List.isPrefixOf?_eq_some_iff_append_eq.mp hregion]; rfl)

/-- The first letter of the directive of an end marker. -/
theorem head_of_endDirective? {cs rest : List Char} {kind : Kind}
    (h : endDirective? cs = some (kind, rest)) : cs.head? = some 'e' := by
  rw [endDirective?] at h
  split at h
  · next r hr => rw [← List.isPrefixOf?_eq_some_iff_append_eq.mp hr]; rfl
  · obtain ⟨region, hregion, -⟩ := Option.bind_eq_some_iff.mp h
    rw [← List.isPrefixOf?_eq_some_iff_append_eq.mp hregion]; rfl

/-- A line does not both open and close a region. -/
theorem endOnLine?_eq_none_of_start {F G : Family} {line : List Char} {m : Marker}
    (h : startOnLine? F line = some m) : endOnLine? G line = none := by
  obtain ⟨cs, kind, rest, hcs, hkind, -⟩ := startOnLine?_eq_some h
  cases he : endOnLine? G line with
  | none => rfl
  | some e =>
    obtain ⟨ds, kind', rest', hds, hkind', -⟩ := endOnLine?_eq_some he
    obtain rfl := afterHash?_family hcs hds
    obtain rfl : cs = ds := Option.some.inj (hcs.symm.trans hds)
    -- the directives begin with different letters
    have hhead := head_of_endDirective? hkind'
    rcases head_of_startDirective? hkind with h' | h' <;>
    · rw [hhead] at h'
      exact absurd h' (by decide)

/-! ### Markers that take up their line -/

theorem after_of_condition?_line {cs condition after : List Char}
    (h : condition? .line cs = some (condition, after)) : after = [] := by
  cases cs with
  | nil => exact absurd h nofun
  | cons c more =>
    rw [condition?] at h
    split at h
    · exact absurd h nofun
    · simp only [Family.closer?] at h
      split at h
      · exact absurd h nofun
      · exact (Prod.mk.inj (Option.some.inj h)).2.symm

theorem after_of_afterEnd?_line {cs after : List Char} (h : afterEnd? .line cs = some after) :
    after = [] := by
  simp only [afterEnd?, Family.closer?] at h
  split at h
  · exact (Option.some.inj h).symm
  · exact absurd h nofun

/-! ### The bracket of a line -/

/-- The bracket of the given style that a line begins with. -/
def bracketOf? (line : List Char) (family : Family) : Option Bracket :=
  ((startOnLine? family line).map (.opening family)).or
    ((endOnLine? family line).map (.closing family))

/-- **The bracket of a line**, if the line begins with a marker of one of the given styles. -/
def bracket? (families : List Family) (line : List Char) : Option Bracket :=
  families.findSome? (bracketOf? line)

theorem bracketOf?_eq_opening_iff {F G : Family} {line : List Char} {m : Marker} :
    bracketOf? line F = some (.opening G m) ↔ G = F ∧ startOnLine? F line = some m := by
  rw [bracketOf?]
  cases hs : startOnLine? F line with
  | none => cases endOnLine? F line <;> simp
  | some s => simp [eq_comm]

theorem bracketOf?_eq_closing_iff {F G : Family} {line : List Char} {m : Marker} :
    bracketOf? line F = some (.closing G m) ↔ G = F ∧ endOnLine? F line = some m := by
  rw [bracketOf?]
  cases hs : startOnLine? F line with
  | none => cases endOnLine? F line <;> simp [eq_comm]
  | some s => simp [endOnLine?_eq_none_of_start hs]

theorem family_of_bracketOf? {F : Family} {line : List Char} {b : Bracket}
    (h : bracketOf? line F = some b) : b.family = F := by
  cases b with
  | opening G m => exact (bracketOf?_eq_opening_iff.mp h).1
  | closing G m => exact (bracketOf?_eq_closing_iff.mp h).1

theorem heads_of_bracketOf? {F : Family} {line : List Char} {b : Bracket}
    (h : bracketOf? line F = some b) : Heads b.marker line := by
  cases b with
  | opening G m =>
    obtain ⟨-, -, -, -, -, -, -, hh⟩ := startOnLine?_eq_some (bracketOf?_eq_opening_iff.mp h).2
    exact hh
  | closing G m =>
    obtain ⟨-, -, -, -, -, -, -, hh⟩ := endOnLine?_eq_some (bracketOf?_eq_closing_iff.mp h).2
    exact hh

/-- Behind a marker stands the end of its line. -/
theorem dropBytes_suffix {F : Family} {line : List Char} {b : Bracket}
    (h : bracketOf? line F = some b) : Text.dropBytes b.span.stop line <:+ line := by
  obtain ⟨marker, after, rfl, -, hspan⟩ := heads_of_bracketOf? h
  rw [show b.span.stop = Text.byteLength marker from congrArg Span.stop hspan,
    Text.dropBytes_byteLength_append]
  exact List.suffix_append marker after

theorem afterHash?_of_bracketOf? {F : Family} {line : List Char} {b : Bracket}
    (h : bracketOf? line F = some b) : ∃ cs, afterHash? F line = some cs := by
  cases b with
  | opening G m =>
    obtain ⟨cs, -, -, hcs, -⟩ := startOnLine?_eq_some (bracketOf?_eq_opening_iff.mp h).2
    exact ⟨cs, hcs⟩
  | closing G m =>
    obtain ⟨cs, -, -, hcs, -⟩ := endOnLine?_eq_some (bracketOf?_eq_closing_iff.mp h).2
    exact ⟨cs, hcs⟩

/-- A marker of the line style takes up its line. -/
theorem stop_of_line_style {line : List Char} {b : Bracket} (h : bracketOf? line .line = some b) :
    b.span.stop = Text.byteLength line := by
  cases b with
  | opening G m =>
    have hs := (bracketOf?_eq_opening_iff.mp h).2
    obtain ⟨cs, -, hs⟩ := Option.bind_eq_some_iff.mp hs
    obtain ⟨⟨kind, rest⟩, -, hs⟩ := Option.bind_eq_some_iff.mp hs
    obtain ⟨body, -, hs⟩ := Option.bind_eq_some_iff.mp hs
    obtain ⟨⟨condition, after⟩, hcond, hs⟩ := Option.bind_eq_some_iff.mp hs
    obtain rfl := Option.some.inj hs
    obtain rfl : after = [] := after_of_condition?_line hcond
    rfl
  | closing G m =>
    have he := (bracketOf?_eq_closing_iff.mp h).2
    obtain ⟨cs, -, he⟩ := Option.bind_eq_some_iff.mp he
    obtain ⟨⟨kind, rest⟩, -, he⟩ := Option.bind_eq_some_iff.mp he
    obtain ⟨after, hafter, he⟩ := Option.bind_eq_some_iff.mp he
    obtain rfl := Option.some.inj he
    obtain rfl : after = [] := after_of_afterEnd?_line hafter
    rfl

/-- **One bracket a line.** The bracket of a line does not depend on the order in which the styles
are tried. -/
theorem bracket?_eq_some_iff {families : List Family} {line : List Char} {b : Bracket} :
    bracket? families line = some b ↔ b.family ∈ families ∧ bracketOf? line b.family = some b := by
  constructor
  · intro h
    obtain ⟨F, hF, hb⟩ := List.exists_of_findSome?_eq_some h
    rw [family_of_bracketOf? hb]
    exact ⟨hF, hb⟩
  · rintro ⟨hmem, hb⟩
    cases h : bracket? families line with
    | none => exact absurd hb (by rw [List.findSome?_eq_none_iff.mp h _ hmem]; nofun)
    | some c =>
      obtain ⟨G, -, hc⟩ := List.exists_of_findSome?_eq_some h
      -- the style that is found first is the only one whose opener the line begins with
      obtain ⟨cs, hcs⟩ := afterHash?_of_bracketOf? hb
      obtain ⟨ds, hds⟩ := afterHash?_of_bracketOf? hc
      obtain rfl := afterHash?_family hcs hds
      exact hc.symm.trans hb

/-- Of several styles, one sees its own brackets. -/
theorem bracket?_singleton {families : List Family} {F : Family} (hF : F ∈ families)
    (line : List Char) :
    bracket? [F] line = (bracket? families line).filter fun b => b.family = F := by
  refine Option.ext fun b => ?_
  rw [bracket?_eq_some_iff, Option.filter_eq_some_iff, bracket?_eq_some_iff, List.mem_singleton,
    decide_eq_true_iff]
  constructor
  · rintro ⟨rfl, hof⟩
    exact ⟨⟨hF, hof⟩, rfl⟩
  · rintro ⟨⟨-, hof⟩, hfam⟩
    exact ⟨hfam, hof⟩

theorem heads_of_bracket? {families : List Family} {line : List Char} {b : Bracket}
    (h : bracket? families line = some b) : Heads b.marker line :=
  heads_of_bracketOf? (bracket?_eq_some_iff.mp h).2

end MarkerLine

end CondRegions
