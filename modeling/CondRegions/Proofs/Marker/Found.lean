import CondRegions.Proofs.Marker.Shape

/-!
# Locating finds the marker lines

A line of a text is a piece between two line feeds, with the second of them (`Text.LineAt`). What
`locate` returns for a style are the markers of the lines that have one of the shapes of the style,
exactly one for each such line and in the order of the lines (`Markers.FoundOn`, `locate_areOf`). A
condition stands in the text where its marker says it does.
-/

namespace CondRegions

open MarkerLine

/-! ### Markers found in a text -/

/-- A line is determined by where it begins. -/
theorem Text.LineAt.unique {text before line after before' line' after' : List Char}
    (h : Text.LineAt text before line after) (h' : Text.LineAt text before' line' after')
    (hstart : Text.byteLength before = Text.byteLength before') :
    before = before' ∧ line = line' := by
  have hbefore : before = before' := by
    calc before
        = Text.takeBytes (Text.byteLength before) text := by
          rw [h.text_eq, Text.takeBytes_byteLength_append]
      _ = before' := by rw [hstart, h'.text_eq, Text.takeBytes_byteLength_append]
  subst hbefore
  refine ⟨rfl, ?_⟩
  -- the line is the first one of what follows
  have hrest : line ++ after = line' ++ after' :=
    List.append_cancel_left (h.text_eq.symm.trans h'.text_eq)
  have hlines := h.lines_eq
  rw [hrest, h'.lines_eq] at hlines
  exact (List.cons.inj hlines).1.symm

namespace Markers

/-- **The markers of lines of a shape.** There is exactly one for each line of the text that has the
shape, where the line begins, none for any other line, and they ascend. -/
structure FoundOn (text : List Char) (shape : List Char → Marker → Prop) (found : List Marker) :
    Prop where
  ascending : found.Pairwise fun m n => m.span.start < n.span.start
  on_line : ∀ m ∈ found, ∃ before line after, Text.LineAt text before line after ∧
    m.span.start = Text.byteLength before
  at_line : ∀ {before line after}, Text.LineAt text before line after → ∀ m,
    m ∈ found ∧ m.span.start = Text.byteLength before ↔
      ∃ n, shape line n ∧ m = n.shift (Text.byteLength before)
  one : ∀ {before line after}, Text.LineAt text before line after → (∃ n, shape line n) →
    ∃! m, m ∈ found ∧ m.span.start = Text.byteLength before

/-- Markers in ascending order are told apart by where they begin. -/
theorem eq_of_start {found : List Marker}
    (h : found.Pairwise fun m n => m.span.start < n.span.start) {m n : Marker} (hm : m ∈ found)
    (hn : n ∈ found) (hstart : m.span.start = n.span.start) : m = n := by
  have key : ∀ x ∈ found, ∀ y ∈ found, x.span.start = y.span.start → x = y := by
    refine List.Pairwise.forall_of_forall_of_flip (fun _ _ _ => rfl) (h.imp ?_) (h.imp ?_)
    · intro x y hlt heq
      exact absurd heq (Nat.ne_of_lt hlt)
    · intro x y hlt heq
      exact absurd heq.symm (Nat.ne_of_lt hlt)
  exact key m hm n hn hstart

theorem foundOn_of_mem {text : List Char} {shape : List Char → Marker → Prop} {found : List Marker}
    (hascending : found.Pairwise fun m n => m.span.start < n.span.start)
    (hstart : ∀ line n, shape line n → n.span.start = 0)
    (hmem : ∀ m, m ∈ found ↔ ∃ before line after n, Text.LineAt text before line after ∧
      shape line n ∧ m = n.shift (Text.byteLength before)) : FoundOn text shape found := by
  -- a marker of a shape is counted from the start of its line
  have hshift : ∀ {line n} (offset : Nat), shape line n → (n.shift offset).span.start = offset := by
    intro line n offset hn
    show n.span.start + offset = offset
    rw [hstart line n hn, Nat.zero_add]
  refine ⟨hascending, fun m hm => ?_, fun {before line after} hline m => ⟨?_, ?_⟩, ?_⟩
  · obtain ⟨before, line, after, n, hline, hn, rfl⟩ := (hmem m).mp hm
    exact ⟨before, line, after, hline, hshift _ hn⟩
  · rintro ⟨hm, hoffset⟩
    obtain ⟨before', line', after', n, hline', hn, rfl⟩ := (hmem m).mp hm
    rw [hshift _ hn] at hoffset
    -- the marker is on the line that begins where the marker does
    obtain ⟨rfl, rfl⟩ := hline'.unique hline hoffset
    exact ⟨n, hn, rfl⟩
  · rintro ⟨n, hn, rfl⟩
    exact ⟨(hmem _).mpr ⟨before, line, after, n, hline, hn, rfl⟩, hshift _ hn⟩
  · rintro before line after hline ⟨n, hn⟩
    refine ⟨n.shift (Text.byteLength before),
      ⟨(hmem _).mpr ⟨before, line, after, n, hline, hn, rfl⟩, hshift _ hn⟩, ?_⟩
    rintro m ⟨hm, hoffset⟩
    refine eq_of_start hascending hm ((hmem _).mpr ⟨before, line, after, n, hline, hn, rfl⟩) ?_
    rw [hoffset, hshift _ hn]

/-- **The markers of a text** in one style. -/
structure AreOf (family : Family) (text : List Char) (ms : Markers) : Prop where
  starts : FoundOn text (IsStartLine family) ms.starts
  ends : FoundOn text (IsEndLine family) ms.ends
  nonempty : ∀ m ∈ ms.starts ++ ms.ends, m.span.start < m.span.stop
  disjoint : (ms.starts ++ ms.ends).Pairwise fun m n =>
    m.span.stop ≤ n.span.start ∨ n.span.stop ≤ m.span.start
  /-- The condition of a start marker is the text at its place, which is inside the marker; it is
  not empty and has no white space at its ends. -/
  conditions : ∀ m ∈ ms.starts, ∃ c, m.condition = some c ∧ m.span.start ≤ c.span.start ∧
    c.span.start < c.span.stop ∧ c.span.stop ≤ m.span.stop ∧
    c.value.toList = Text.slice text c.span.start c.span.stop ∧
    Text.trim c.value.toList = c.value.toList
  no_conditions : ∀ m ∈ ms.ends, m.condition = Option.none

end Markers

/-! ### Conditions in a text -/

/-- A piece of a text, with its place. -/
def Spanned.StandsIn (c : Spanned String) (text : List Char) : Prop :=
  ∃ before after, text = before ++ c.value.toList ++ after ∧
    c.span = ⟨Text.byteLength before, Text.byteLength before + Text.byteLength c.value.toList⟩

namespace Spanned.StandsIn

variable {c : Spanned String} {text : List Char}

theorem slice_eq (h : c.StandsIn text) :
    Text.slice text c.span.start c.span.stop = c.value.toList := by
  obtain ⟨before, after, rfl, hspan⟩ := h
  rw [hspan]
  exact Text.slice_split before c.value.toList after

theorem start_lt (h : c.StandsIn text) (hne : c.value.toList ≠ []) :
    c.span.start < c.span.stop := by
  obtain ⟨before, after, -, hspan⟩ := h
  rw [hspan]
  exact Nat.lt_add_of_pos_right (Text.byteLength_pos hne)

end Spanned.StandsIn

/-! ### Located markers -/

/-- **The brackets of a text** are those of its lines, moved to where the lines begin. -/
theorem Word.mem_ofText_iff {family : Family} {text : List Char} {b : Bracket} :
    b ∈ Word.ofText [family] text ↔ ∃ before line after c, Text.LineAt text before line after ∧
      bracketOf? line family = some c ∧ b = c.shift (Text.byteLength before) := by
  -- among the brackets of one style, the style need not be looked for
  have hbracket : ∀ {line : List Char} {c : Bracket},
      bracket? [family] line = some c ↔ bracketOf? line family = some c := by
    intro line c
    rw [bracket?_eq_some_iff, List.mem_singleton]
    constructor
    · rintro ⟨rfl, h⟩
      exact h
    · intro h
      rw [family_of_bracketOf? h]
      exact ⟨rfl, h⟩
  unfold Word.ofText
  rw [Word.mem_ofLines]
  constructor
  · rintro ⟨earlier, line, later, c, hlines, hc, rfl⟩
    refine ⟨earlier.flatten, line, later.flatten, c, ?_, hbracket.mp hc, by rw [Nat.zero_add]⟩
    exact Text.lineAt_iff.mpr ⟨earlier, later, hlines, rfl, rfl⟩
  · rintro ⟨before, line, after, c, hline, hc, rfl⟩
    obtain ⟨earlier, later, hlines, rfl, -⟩ := Text.lineAt_iff.mp hline
    exact ⟨earlier, line, later, c, hlines, hbracket.mpr hc, by rw [Nat.zero_add]⟩

theorem mem_starts_locate_iff {family : Family} {text : List Char} {m : Marker} :
    m ∈ (locate family text).starts ↔ ∃ before line after n, Text.LineAt text before line after ∧
      IsStartLine family line n ∧ m = n.shift (Text.byteLength before) := by
  rw [Word.mem_starts_locate, Word.mem_ofText_iff]
  constructor
  · rintro ⟨before, line, after, c, hline, hc, hm⟩
    cases c with
    | closing f n => cases hm
    | opening f n =>
      obtain ⟨rfl, hn⟩ := bracketOf?_eq_opening_iff.mp hc
      exact ⟨before, line, after, n, hline, (startOnLine?_eq_some_iff hline.inner).mp hn,
        (Bracket.opening.inj hm).2⟩
  · rintro ⟨before, line, after, n, hline, hn, rfl⟩
    refine ⟨before, line, after, .opening family n, hline, ?_, rfl⟩
    exact bracketOf?_eq_opening_iff.mpr ⟨rfl, (startOnLine?_eq_some_iff hline.inner).mpr hn⟩

theorem mem_ends_locate_iff {family : Family} {text : List Char} {m : Marker} :
    m ∈ (locate family text).ends ↔ ∃ before line after n, Text.LineAt text before line after ∧
      IsEndLine family line n ∧ m = n.shift (Text.byteLength before) := by
  rw [Word.mem_ends_locate, Word.mem_ofText_iff]
  constructor
  · rintro ⟨before, line, after, c, hline, hc, hm⟩
    cases c with
    | opening f n => cases hm
    | closing f n =>
      obtain ⟨rfl, hn⟩ := bracketOf?_eq_closing_iff.mp hc
      exact ⟨before, line, after, n, hline, endOnLine?_eq_some_iff.mp hn,
        (Bracket.closing.inj hm).2⟩
  · rintro ⟨before, line, after, n, hline, hn, rfl⟩
    refine ⟨before, line, after, .closing family n, hline, ?_, rfl⟩
    exact bracketOf?_eq_closing_iff.mpr ⟨rfl, endOnLine?_eq_some_iff.mpr hn⟩

/-- The condition of a marker line stands where the marker says, inside the marker. -/
theorem MarkerLine.StartLine.condition_standsIn {family : Family} (s : StartLine family)
    (before after : List Char) :
    ∃ c, (s.marker.shift (Text.byteLength before)).condition = some c ∧
      c.value.toList = s.condition ∧ c.StandsIn (before ++ (s.text ++ after)) ∧
      (s.marker.shift (Text.byteLength before)).span.start ≤ c.span.start ∧
      c.span.stop ≤ (s.marker.shift (Text.byteLength before)).span.stop := by
  -- what is trimmed stands behind the condition
  obtain ⟨space, hspace, -⟩ := Text.trimEnd_cases (s.first :: s.more)
  have hcondition : s.first :: s.more = s.condition ++ space := hspace
  refine ⟨_, rfl, String.toList_ofList, ⟨before ++ s.lead,
    space ++ (s.blanks ++ (s.ending ++ s.rest)) ++ after, ?_, ?_⟩, ?_, ?_⟩
  · unfold StartLine.text
    rw [hcondition, String.toList_ofList]
    simp only [List.append_assoc]
  · rw [String.toList_ofList, Text.byteLength_append, Nat.add_comm (Text.byteLength before)]
    show Span.mk _ _ = _
    rw [Nat.add_right_comm]
  · exact Nat.add_le_add_right (Nat.zero_le _) _
  · refine Nat.add_le_add_right ?_ _
    show Text.byteLength s.lead + Text.byteLength s.condition ≤
      Text.byteLength (s.lead ++ (s.first :: s.more ++ s.blanks ++ s.ending))
    rw [hcondition]
    simp only [Text.byteLength_append]
    omega

/-- What is known of the condition of a located marker. -/
theorem exists_condition_of_mem_starts {family : Family} {text : List Char} {m : Marker}
    (h : m ∈ (locate family text).starts) :
    ∃ c, m.condition = some c ∧ c.StandsIn text ∧ m.span.start ≤ c.span.start ∧
      c.span.stop ≤ m.span.stop ∧
      ∃ first more, isWhiteSpace first = false ∧ c.value.toList = Text.trimEnd (first :: more) := by
  obtain ⟨before, _, after, _, hline, ⟨s, rfl, rfl⟩, rfl⟩ := mem_starts_locate_iff.mp h
  obtain ⟨c, hc, hvalue, hstands, hstart, hstop⟩ := s.condition_standsIn before after
  rw [← hline.text_eq] at hstands
  exact ⟨c, hc, hstands, hstart, hstop, s.first, s.more, s.visible, hvalue⟩

/-- **Locating finds exactly the marker lines.** -/
theorem locate_areOf (family : Family) (text : List Char) :
    (locate family text).AreOf family text := by
  have hseparated := locate_separated family text
  have hordered := Word.ordered_ofText [family] text
  refine ⟨?_, ?_, hseparated.nonempty, hseparated.disjoint, ?_, ?_⟩
  · refine Markers.foundOn_of_mem ?_ ?_ fun m => mem_starts_locate_iff
    · rw [Word.locate_eq_ofText]
      exact hordered.openings_pairwise_lt
    · rintro line _ ⟨s, -, rfl⟩
      rfl
  · refine Markers.foundOn_of_mem ?_ ?_ fun m => mem_ends_locate_iff
    · rw [Word.locate_eq_ofText]
      exact hordered.closings_pairwise_lt
    · rintro line _ ⟨s, -, rfl⟩
      rfl
  · intro m hm
    obtain ⟨c, hc, hstands, hstart, hstop, first, more, hfirst, hvalue⟩ :=
      exists_condition_of_mem_starts hm
    obtain ⟨more', hmore'⟩ := Text.trimEnd_cons hfirst more
    refine ⟨c, hc, hstart, ?_, hstop, hstands.slice_eq.symm, ?_⟩
    · refine hstands.start_lt ?_
      rw [hvalue, hmore']
      exact List.cons_ne_nil _ _
    · rw [hvalue]
      exact Text.trim_trimEnd hfirst more
  · intro m hm
    obtain ⟨before, _, after, _, -, ⟨s, -, rfl⟩, rfl⟩ := mem_ends_locate_iff.mp hm
    rfl

end CondRegions
