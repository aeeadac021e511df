import CondRegions.Proofs.Marker.Found
import CondRegions.Proofs.Region.Rewriting

/-!
# Line numbers of regions

A region is reported with the lines of its first and of its last byte. Lines are counted by line
feeds, the lines of a text are the pieces that it is cut into, and the two agree as long as no line
feed of the line comes before the place in question (`Text.NthLine.lineOf_eq`). That is so at the
start of a marker, and at its last byte: the marker ends on its line, and its only line feed, if it
has one, is that byte.

A byte is not a character. An end marker has characters of one byte only, whatever it ends in
(`MarkerLine.EndLine.isAscii`), so the text can be cut before its last byte, which is where counting
cuts it. No such thing is true of start markers, whose conditions may hold any characters; there it
is not needed.

Markers begin where lines begin, and lines are numbered in the order in which they begin
(`Text.LineStart.lt_iff`). So the line numbers of regions nest as their spans do (`regions_lines`).
-/

namespace CondRegions

/-! ### Numbered lines -/

namespace Text

/-- **Numbered lines.** `line` is the `n`-th line of the text, counted from one, and `before` stands
before it. -/
def NthLine (text : List Char) (n : Nat) (before line : List Char) : Prop :=
  ∃ earlier later, lines text = earlier ++ line :: later ∧ before = earlier.flatten ∧
    n = earlier.length + 1

/-- A line has a number. -/
theorem LineAt.exists_nthLine {text before line after : List Char}
    (h : LineAt text before line after) : ∃ n, NthLine text n before line := by
  obtain ⟨earlier, later, hlines, hbefore, -⟩ := lineAt_iff.mp h
  exact ⟨earlier.length + 1, earlier, later, hlines, hbefore, rfl⟩

/-- A line that ends in a line feed has one line feed. -/
theorem countBreaks_line {line : List Char} (hinner : '\n' ∉ line.dropLast)
    (hlast : line.getLast? = some '\n') : countBreaks line = 1 := by
  obtain ⟨init, rfl⟩ := List.getLast?_eq_some_iff.mp hlast
  rw [List.dropLast_concat] at hinner
  unfold countBreaks
  rw [List.count_append, List.count_eq_zero.mpr hinner]
  rfl

/-- Full lines have as many line feeds as there are lines. -/
theorem countBreaks_flatten {ls : List (List Char)} (hinner : ∀ l ∈ ls, '\n' ∉ l.dropLast)
    (hlast : ∀ l ∈ ls, l.getLast? = some '\n') : countBreaks ls.flatten = ls.length := by
  induction ls with
  | nil => rfl
  | cons l ls ih =>
    obtain ⟨hl, hls⟩ := List.forall_mem_cons.mp hinner
    obtain ⟨hl', hls'⟩ := List.forall_mem_cons.mp hlast
    have hrest := ih hls hls'
    have hfirst := countBreaks_line hl hl'
    unfold countBreaks at hrest hfirst ⊢
    rw [List.flatten_cons, List.count_append, hfirst, hrest, List.length_cons, Nat.add_comm]

namespace NthLine

variable {text before line before' line' : List Char} {n n' : Nat}

theorem text_eq (h : NthLine text n before line) : ∃ after, text = before ++ (line ++ after) := by
  obtain ⟨earlier, later, hlines, rfl, -⟩ := h
  refine ⟨later.flatten, ?_⟩
  rw [← flatten_lines text, hlines, List.flatten_append, List.flatten_cons]

/-- The lines before a line are full. -/
theorem countBreaks_before (h : NthLine text n before line) : countBreaks before + 1 = n := by
  obtain ⟨earlier, later, hlines, rfl, rfl⟩ := h
  have hare := areLines_lines text
  rw [hlines] at hare
  -- a line with another one behind it ends in a line feed
  obtain ⟨-, -, hfull⟩ := List.pairwise_append.mp hare.full
  rw [countBreaks_flatten]
  · intro l hl
    exact hare.inner l (List.mem_append_left _ hl)
  · intro l hl
    exact hfull l hl line List.mem_cons_self

theorem not_mem_dropLast (h : NthLine text n before line) : '\n' ∉ line.dropLast := by
  obtain ⟨earlier, later, hlines, -, -⟩ := h
  have hare := areLines_lines text
  rw [hlines] at hare
  exact hare.inner line (List.mem_append_right _ List.mem_cons_self)

/-- **Counting line feeds.** Up to its last character, a line has the number of line feeds before it
and one. -/
theorem lineOf_eq (h : NthLine text n before line) {part : List Char}
    (hpart : part <+: line.dropLast) :
    IsBoundary text (byteLength before + byteLength part) ∧
      Span.lineOf text (byteLength before + byteLength part) = n := by
  obtain ⟨after, htext⟩ := h.text_eq
  obtain ⟨rest, hrest⟩ := hpart.trans (List.dropLast_prefix line)
  have hcut : text = before ++ part ++ (rest ++ after) := by
    rw [htext, ← hrest]
    simp only [List.append_assoc]
  rw [← byteLength_append]
  refine ⟨⟨before ++ part, rest ++ after, hcut, rfl⟩, ?_⟩
  have hbreaks : countBreaks (before ++ part) = countBreaks before := by
    have hnone : '\n' ∉ part := fun hmem => h.not_mem_dropLast (hpart.subset hmem)
    unfold countBreaks
    rw [List.count_append, List.count_eq_zero.mpr hnone, Nat.add_zero]
  unfold Span.lineOf
  rw [hcut, takeBytes_byteLength_append, hbreaks, h.countBreaks_before]

theorem nonempty (h : NthLine text n before line) : line ≠ [] := by
  obtain ⟨earlier, later, hlines, -, -⟩ := h
  have hare := areLines_lines text
  rw [hlines] at hare
  exact hare.nonempty line (List.mem_append_right _ List.mem_cons_self)

/-- A line with a smaller number begins no later. -/
theorem start_le (h : NthLine text n before line) (h' : NthLine text n' before' line')
    (hle : n ≤ n') : byteLength before ≤ byteLength before' := by
  obtain ⟨earlier, later, hlines, rfl, rfl⟩ := h
  obtain ⟨earlier', later', hlines', rfl, rfl⟩ := h'
  have hprefix : earlier <+: earlier' := by
    refine List.prefix_of_prefix_length_le ⟨_, hlines.symm⟩ ⟨_, hlines'.symm⟩ ?_
    omega
  obtain ⟨between, rfl⟩ := hprefix
  rw [List.flatten_append, byteLength_append]
  exact Nat.le_add_right _ _

/-- A line ends before those with greater numbers begin. -/
theorem stop_le (h : NthLine text n before line) (h' : NthLine text n' before' line')
    (hlt : n < n') : byteLength before + byteLength line ≤ byteLength before' := by
  obtain ⟨earlier, later, hlines, rfl, rfl⟩ := h
  obtain ⟨earlier', later', hlines', rfl, rfl⟩ := h'
  -- the line is one of those before the other
  have hprefix : earlier ++ [line] <+: earlier' := by
    refine List.prefix_of_prefix_length_le ⟨later, ?_⟩ ⟨_, hlines'.symm⟩ ?_
    · rw [hlines, List.append_assoc, List.singleton_append]
    · rw [List.length_append, List.length_singleton]
      omega
  obtain ⟨between, rfl⟩ := hprefix
  rw [List.flatten_append, List.flatten_append, List.flatten_singleton, byteLength_append,
    byteLength_append]
  exact Nat.le_add_right _ _

end NthLine

/-- The `n`-th line of the text begins at `offset`. -/
def LineStart (text : List Char) (offset n : Nat) : Prop :=
  ∃ before line, NthLine text n before line ∧ offset = byteLength before

/-- **Lines are numbered in the order in which they begin.** -/
theorem LineStart.lt_iff {text : List Char} {offset offset' n n' : Nat}
    (h : LineStart text offset n) (h' : LineStart text offset' n') : n < n' ↔ offset < offset' := by
  obtain ⟨before, line, hline, rfl⟩ := h
  obtain ⟨before', line', hline', rfl⟩ := h'
  constructor
  · intro hlt
    have hle := hline.stop_le hline' hlt
    have hpos := byteLength_pos hline.nonempty
    omega
  · intro hlt
    by_contra hnot
    have hle := hline'.start_le hline (Nat.le_of_not_lt hnot)
    omega

/-! ### Characters of one byte -/

/-- A text whose characters have one byte each. -/
def IsAscii (cs : List Char) : Prop :=
  ∀ c ∈ cs, c.utf8Size = 1

-- the characters of the text are tried, not all the characters there are
instance (cs : List Char) : Decidable (IsAscii cs) :=
  List.decidableBAll _ cs

theorem IsAscii.append {xs ys : List Char} (hx : IsAscii xs) (hy : IsAscii ys) :
    IsAscii (xs ++ ys) := by
  intro c hc
  exact (List.mem_append.mp hc).elim (hx c) (hy c)

theorem IsBlanks.isAscii {cs : List Char} (h : IsBlanks cs) : IsAscii cs := by
  intro c hc
  rcases (by simpa [isBlank] using h c hc : c = ' ' ∨ c = '\t') with rfl | rfl <;> rfl

end Text

namespace MarkerLine

variable {family : Family}

/-- Directives are written in characters of one byte. -/
theorem Written.isAscii {kind : Kind} {cs : List Char} (h : Written kind cs) : Text.IsAscii cs := by
  have hwords : ∀ word ∈ kind.words, Text.IsAscii word.toList := by
    cases kind <;> decide
  cases h with
  | one h =>
    rw [h] at hwords
    exact hwords _ List.mem_cons_self
  | two h hgap =>
    rw [h] at hwords
    exact ((hwords _ List.mem_cons_self).append hgap.1.isAscii).append
      (hwords _ (List.mem_cons_of_mem _ List.mem_cons_self))

theorem IsPreamble.isAscii {kind : Kind} {cs : List Char} (h : IsPreamble family kind cs) :
    Text.IsAscii cs := by
  obtain ⟨indent, blanks, directive, hindent, hblanks, hdirective, rfl⟩ := h
  have hopener : Text.IsAscii family.opener := by
    cases family <;> decide
  refine ((hindent.isAscii.append hopener).append hblanks.isAscii).append ?_
  exact List.forall_mem_cons.mpr ⟨rfl, hdirective.isAscii⟩

theorem isAscii_of_isLineBreak {cs : List Char} (h : isLineBreak cs = true) : Text.IsAscii cs := by
  rcases isLineBreak_iff.mp h with rfl | rfl <;> decide

theorem isAscii_closer {closer : List Char} (h : family.closer? = some closer) :
    Text.IsAscii closer := by
  cases family <;> cases h <;> decide

/-- However a marker ends, it ends in characters of one byte. -/
theorem Ending.isAscii {ending rest : List Char} (h : Ending family ending rest) :
    Text.IsAscii ending := by
  cases h with
  | line h hbreak =>
    rcases hbreak with hbreak | rfl
    · exact isAscii_of_isLineBreak hbreak
    · exact nofun
  | whole h hblanks hbreak =>
    exact (isAscii_closer h).append (hblanks.isAscii.append (isAscii_of_isLineBreak hbreak))
  | part h hrest => exact isAscii_closer h

/-- **End markers** have characters of one byte only. -/
theorem EndLine.isAscii (s : EndLine family) :
    Text.IsAscii (s.preamble ++ (s.blanks ++ s.ending)) :=
  s.isPreamble.isAscii.append (s.isBlanks.isAscii.append s.isEnding.isAscii)

/-- The last character of an end marker has one byte. -/
theorem EndLine.exists_last (s : EndLine family) :
    ∃ init last, s.preamble ++ (s.blanks ++ s.ending) = init ++ [last] ∧ last.utf8Size = 1 := by
  rcases List.eq_nil_or_concat' (s.preamble ++ (s.blanks ++ s.ending))
    with hnil | ⟨init, last, hlast⟩
  · -- at least the number sign is there
    obtain ⟨indent, blanks, directive, -, -, -, hpreamble⟩ := s.isPreamble
    have hmem : '#' ∈ s.preamble := by simp [hpreamble]
    rw [(List.append_eq_nil_iff.mp hnil).1] at hmem
    cases hmem
  · refine ⟨init, last, hlast, s.isAscii last ?_⟩
    rw [hlast]
    exact List.mem_append_right _ (List.mem_singleton_self last)

end MarkerLine

/-! ### The lines of markers -/

namespace Marker

/-- **The line of a marker.** It begins where the `n`-th line of the text begins, and does not end
behind it. -/
def OnLine (m : Marker) (text : List Char) (n : Nat) : Prop :=
  ∃ before line, Text.NthLine text n before line ∧ m.span.start = Text.byteLength before ∧
    m.span.stop ≤ Text.byteLength before + Text.byteLength line

variable {m : Marker} {text : List Char} {n : Nat}

theorem OnLine.lineStart (h : m.OnLine text n) : Text.LineStart text m.span.start n := by
  obtain ⟨before, line, hline, hstart, -⟩ := h
  exact ⟨before, line, hline, hstart⟩

/-- A marker that covers the start of a line is on it. -/
theorem OnLine.of_heads {before line : List Char} (hline : Text.NthLine text n before line)
    (h : MarkerLine.Heads m line) : (m.shift (Text.byteLength before)).OnLine text n := by
  obtain ⟨marker, after, rfl, -, hspan⟩ := h
  refine ⟨before, marker ++ after, hline, ?_, ?_⟩
  · show m.span.start + Text.byteLength before = Text.byteLength before
    rw [hspan, Nat.zero_add]
  · show m.span.stop + Text.byteLength before ≤ _
    rw [hspan, Text.byteLength_append]
    dsimp only
    omega

end Marker

open MarkerLine in
/-- **Start markers.** The line of a start marker is the one that its first byte is counted to. -/
theorem onLine_of_mem_starts {family : Family} {text : List Char} {m : Marker}
    (h : m ∈ (locate family text).starts) : m.OnLine text (Span.lineOf text m.span.start) := by
  obtain ⟨before, line, after, k, hat, hk, rfl⟩ := mem_starts_locate_iff.mp h
  obtain ⟨n, hline⟩ := hat.exists_nthLine
  have hheads : Heads k line := by
    obtain ⟨-, -, -, -, -, -, -, hheads⟩ :=
      startOnLine?_eq_some ((startOnLine?_eq_some_iff hat.inner).mpr hk)
    exact hheads
  have hon := Marker.OnLine.of_heads hline hheads
  have hstart : (k.shift (Text.byteLength before)).span.start =
      Text.byteLength before + Text.byteLength [] := by
    obtain ⟨marker, rest, -, -, hspan⟩ := hheads
    show k.span.start + Text.byteLength before = Text.byteLength before
    rw [hspan, Nat.zero_add]
  rw [hstart, (hline.lineOf_eq List.nil_prefix).2]
  exact hon

open MarkerLine in
/-- **End markers.** The line of an end marker is the one that its last byte is counted to, and the
text can be cut before this byte. -/
theorem onLine_of_mem_ends {family : Family} {text : List Char} {m : Marker}
    (h : m ∈ (locate family text).ends) :
    Text.IsBoundary text (m.span.stop - 1) ∧
    m.OnLine text (Span.lineOf text (m.span.stop - 1)) := by
  obtain ⟨before, _, after, _, hat, ⟨s, rfl, rfl⟩, rfl⟩ := mem_ends_locate_iff.mp h
  obtain ⟨n, hline⟩ := hat.exists_nthLine
  obtain ⟨init, last, hmarker, hlast⟩ := s.exists_last
  have htext : s.text = init ++ ([last] ++ s.rest) := by
    calc s.text
        = s.preamble ++ (s.blanks ++ s.ending) ++ s.rest := by
          simp only [EndLine.text, List.append_assoc]
      _ = init ++ ([last] ++ s.rest) := by rw [hmarker, List.append_assoc]
  have hspan : s.marker.span = ⟨0, Text.byteLength init + 1⟩ := by
    unfold EndLine.marker
    rw [hmarker, Text.byteLength_append, Text.byteLength_cons, hlast, Text.byteLength_nil]
  have hheads : Heads s.marker s.text := by
    refine ⟨init ++ [last], s.rest, by rw [htext, List.append_assoc], by simp, ?_⟩
    rw [hspan, Text.byteLength_append, Text.byteLength_cons, hlast, Text.byteLength_nil]
  have hstop : (s.marker.shift (Text.byteLength before)).span.stop - 1 =
      Text.byteLength before + Text.byteLength init := by
    show s.marker.span.stop + Text.byteLength before - 1 = _
    rw [hspan]
    dsimp only
    omega
  -- no line feed of the line comes before the last character of the marker
  have hinit : init <+: s.text.dropLast := by
    rw [htext, List.dropLast_append_of_ne_nil (by simp)]
    exact List.prefix_append _ _
  obtain ⟨hboundary, hnumber⟩ := hline.lineOf_eq hinit
  rw [hstop, hnumber]
  exact ⟨hboundary, Marker.OnLine.of_heads hline hheads⟩

/-! ### The lines of regions -/

namespace Region

/-- **Slices.** The text can be cut at both ends of the region and of what stands between its
markers, and before its last byte. -/
structure IsSliceable (r : Region) (text : List Char) : Prop where
  full : r.span.IsSlice text
  inner : r.inner.IsSlice text
  nonempty : r.span.start < r.span.stop
  last_byte : Text.IsBoundary text (r.span.stop - 1)

/-- A region that is well formed is not empty. -/
theorem WellFormed.start_lt_stop {r : Region} (h : r.WellFormed) : r.span.start < r.span.stop :=
  Nat.lt_trans (Nat.lt_of_lt_of_le h.opening_lt h.inner_le) h.closing_lt

/-- The first line of a region. -/
def firstLine (text : List Char) (r : Region) : Nat :=
  (r.span.lineRange text).1

/-- The last line of a region. -/
def lastLine (text : List Char) (r : Region) : Nat :=
  (r.span.lineRange text).2

/-- The last line of a region is the one of its last byte. -/
theorem WellFormed.lastLine_eq {r : Region} (h : r.WellFormed) (text : List Char) :
    r.lastLine text = Span.lineOf text (r.span.stop - 1) := by
  unfold lastLine Span.lineRange
  rw [if_pos h.start_lt_stop]

/-- **Line ranges.** A region reaches from the line of its start marker to the line of its end
marker. -/
structure Reaches (text : List Char) (ms : Markers) (r : Region) : Prop where
  opening : ∃ m ∈ ms.starts, m.span = ⟨r.span.start, r.inner.start⟩ ∧
    m.OnLine text (r.firstLine text)
  closing : ∃ m ∈ ms.ends, m.span = ⟨r.inner.stop, r.span.stop⟩ ∧ m.OnLine text (r.lastLine text)

section Reaches

variable {text : List Char} {ms : Markers} {r s : Region}

theorem Reaches.first_start (h : r.Reaches text ms) :
    Text.LineStart text r.span.start (r.firstLine text) := by
  obtain ⟨m, -, hspan, hon⟩ := h.opening
  have hstart := hon.lineStart
  rwa [hspan] at hstart

theorem Reaches.last_start (h : r.Reaches text ms) :
    Text.LineStart text r.inner.stop (r.lastLine text) := by
  obtain ⟨m, -, hspan, hon⟩ := h.closing
  have hstart := hon.lineStart
  rwa [hspan] at hstart

/-- The end marker is on a later line than the start marker. -/
theorem Reaches.first_lt_last (h : r.Reaches text ms) (hwf : r.WellFormed) :
    r.firstLine text < r.lastLine text := by
  rw [h.first_start.lt_iff h.last_start]
  exact Nat.lt_of_lt_of_le hwf.opening_lt hwf.inner_le

/-- **Lines nest as spans do.** Of two regions, one ends on an earlier line than the other begins
exactly if it ends before the other, and has the lines of the other strictly between its first and
its last exactly if it has the other between its markers. -/
theorem Reaches.nested (h : r.Reaches text ms) (h' : s.Reaches text ms) (hwf : r.WellFormed)
    (hwf' : s.WellFormed)
    (hforest : r ≠ s → r.span.stop ≤ s.span.start ∨ s.span.stop ≤ r.span.start ∨
      r.inner.contains s.span = true ∨ s.inner.contains r.span = true) :
    (r.lastLine text < s.firstLine text ↔ r.span.stop ≤ s.span.start) ∧
    (r.firstLine text < s.firstLine text ∧ s.lastLine text < r.lastLine text ↔
      r.inner.contains s.span = true) := by
  rw [h.last_start.lt_iff h'.first_start, h.first_start.lt_iff h'.first_start,
    h'.last_start.lt_iff h.last_start]
  simp only [Span.contains_eq_true] at hforest ⊢
  -- the rest is about the eight offsets of the two regions
  have h1 := hwf.opening_lt
  have h2 := hwf.inner_le
  have h3 := hwf.closing_lt
  have h4 := hwf'.opening_lt
  have h5 := hwf'.inner_le
  have h6 := hwf'.closing_lt
  by_cases hrs : r = s
  · -- neither side holds of a region and itself
    subst hrs
    omega
  · have hcases := hforest hrs
    omega

end Reaches

end Region

open Word in
/-- The region of a pairing of located markers reaches from the one to the other, and the text can
be cut before its last byte. -/
theorem reaches_of_pairings {family : Family} {text : List Char} {ps : List Pairing}
    (h : pairings [] (ofText [family] text) = .ok ps) (defs : Definitions) {p : Pairing}
    (hp : p ∈ ps) :
    (p.toRegion defs).Reaches text (locate family text) ∧
      Text.IsBoundary text ((p.toRegion defs).span.stop - 1) := by
  have hopening : p.opening ∈ (locate family text).starts := by
    rw [locate_eq_ofText]
    exact (opening_mem_of_pairings h hp).resolve_left List.not_mem_nil
  have hclosing : p.closing ∈ (locate family text).ends := by
    rw [locate_eq_ofText]
    exact closing_mem_of_pairings h hp
  have hordered : Ordered (stackWord [] ++ ofText [family] text) := ordered_ofText [family] text
  have hwf := (wellFormed_of_pairings hordered h p hp).toRegion defs
  obtain ⟨hboundary, hon⟩ := onLine_of_mem_ends hclosing
  refine ⟨⟨⟨p.opening, hopening, rfl, onLine_of_mem_starts hopening⟩, p.closing, hclosing, rfl, ?_⟩,
    hboundary⟩
  rw [hwf.lastLine_eq]
  exact hon

/-- **Lines of regions.** Let the markers of one style in a text be resolved. Then the text can be
cut wherever the text of a region, its inner text and its line range cut it. A region reaches from
the line of its start marker to the line of its end marker, and this is a later one. No two regions
begin on one line, and they are listed in the order of their first lines. The line ranges of two
regions are disjoint, or one lies strictly inside the other, just as their spans do. -/
theorem regions_lines (family : Family) (text : List Char) (defs : Definitions) (source : Source)
    (res : Resolution) (h : resolve family (locate family text) defs source = .ok res) :
    (∀ r ∈ res.regions, r.IsSliceable text ∧ r.Reaches text (locate family text) ∧
      r.span.lineRange text = (r.firstLine text, r.lastLine text) ∧
      r.firstLine text < r.lastLine text) ∧
    (res.regions.Pairwise fun r s => r.firstLine text < s.firstLine text) ∧
    ∀ r ∈ res.regions, ∀ s ∈ res.regions,
      (r.lastLine text < s.firstLine text ↔ r.span.stop ≤ s.span.start) ∧
      (r.firstLine text < s.firstLine text ∧ s.lastLine text < r.lastLine text ↔
        r.inner.contains s.span = true) ∧
      (r ≠ s → r.lastLine text < s.firstLine text ∨ s.lastLine text < r.firstLine text ∨
        r.firstLine text < s.firstLine text ∧ s.lastLine text < r.lastLine text ∨
        s.firstLine text < r.firstLine text ∧ r.lastLine text < s.lastLine text) := by
  obtain ⟨ps, hps, rfl⟩ := resolve_locate_eq_ok_iff.mp h
  have hfits := Region.fits_of_pairings hps defs
  have hforest := Region.disjoint_or_inside hfits.precedes
  have hreaches : ∀ r ∈ (Pairing.sort ps).map (Pairing.toRegion defs),
      r.Reaches text (locate family text) ∧ Text.IsBoundary text (r.span.stop - 1) := by
    intro r hr
    obtain ⟨p, hp, rfl⟩ := List.mem_map.mp hr
    exact reaches_of_pairings hps defs (Pairing.mem_sort.mp hp)
  refine ⟨?_, ?_, ?_⟩
  · -- where the text is cut
    intro r hr
    have hwf := hfits.wellFormed r hr
    have hbounds := hfits.onBoundaries r hr
    obtain ⟨hr', hlast⟩ := hreaches r hr
    refine ⟨⟨?_, ?_, hwf.start_lt_stop, hlast⟩, hr', rfl, hr'.first_lt_last hwf⟩
    · exact ⟨Nat.le_of_lt hwf.start_lt_stop, hbounds.span_start, hbounds.span_stop⟩
    · exact ⟨hwf.inner_le, hbounds.inner_start, hbounds.inner_stop⟩
  · -- regions are listed in the order of their starts
    refine hfits.pairwise_lt.imp_of_mem ?_
    intro r s hr hs hlt
    exact ((hreaches r hr).1.first_start.lt_iff (hreaches s hs).1.first_start).mpr hlt
  · -- the four ways in which two regions can lie are those of their spans
    intro r hr s hs
    obtain ⟨hrs, hrs'⟩ := (hreaches r hr).1.nested (hreaches s hs).1 (hfits.wellFormed r hr)
      (hfits.wellFormed s hs) (hforest r hr s hs)
    obtain ⟨hsr, hsr'⟩ := (hreaches s hs).1.nested (hreaches r hr).1 (hfits.wellFormed s hs)
      (hfits.wellFormed r hr) (hforest s hs r hr)
    refine ⟨hrs, hrs', ?_⟩
    intro hne
    rw [hrs, hrs', hsr, hsr']
    exact hforest r hr s hs hne

/-- A region in another one, with characters of two bytes before the markers, between them and in a
condition. The text ends with a marker. -/
def nestedLines : List Char :=
  "é\n/*#ifdef A*/ü\r\n/* #ifndef A === \"é\" */\n/* #endif */\t\r\nü\n/*#endif*/".toList

/-- The pairs of its markers, as the matcher finds them. -/
def nestedLinesPairings : List Pairing :=
  [⟨⟨.ifndef, ⟨19, 44⟩, some ⟨"A === \"é\"", ⟨30, 40⟩⟩⟩, ⟨.endif, ⟨44, 59⟩, none⟩, 1⟩,
    ⟨⟨.ifdef, ⟨3, 15⟩, some ⟨"A", ⟨12, 13⟩⟩⟩, ⟨.endif, ⟨62, 72⟩, none⟩, 0⟩]

/-- The theorem at nested regions between lines with characters of two bytes. -/
theorem regions_lines_nested :
    ∃ res, resolve .block (locate .block nestedLines) FinMap.empty ⟨"a.ts", ""⟩ = .ok res ∧
      (res.regions.map fun r => r.span.lineRange nestedLines).Perm [(3, 4), (2, 6)] ∧
      ∀ r ∈ res.regions, r.IsSliceable nestedLines := by
  have hpairs : Word.pairings [] (Word.ofText [.block] nestedLines) = .ok nestedLinesPairings := by
    decide +kernel
  have hok : resolve .block (locate .block nestedLines) FinMap.empty ⟨"a.ts", ""⟩ = .ok _ :=
    resolve_locate_eq_ok_iff.mpr ⟨nestedLinesPairings, hpairs, rfl⟩
  refine ⟨_, hok, ?_, ?_⟩
  · have hranges : (nestedLinesPairings.map fun p => p.span.lineRange nestedLines) =
        [(3, 4), (2, 6)] := by
      decide +kernel
    rw [← hranges]
    dsimp only
    rw [List.map_map]
    exact (Pairing.sort_perm nestedLinesPairings).map _
  · intro r hr
    exact ((regions_lines .block nestedLines _ _ _ hok).1 r hr).1

end CondRegions
