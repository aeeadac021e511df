import CondRegions.Proofs.Marker.Line
import CondRegions.Proofs.Text.Lines

/-!
# The word of a text

Read line by line, a text gives a word of brackets for any choice of styles (`Word.ofText`). The
word is ordered (`Word.ordered_ofLines`), its brackets begin and end at boundaries of the text
(`Word.isBoundary_ofText`), and for one style its start and end markers are those that `locate`
finds (`locate_eq_ofText`). In particular located markers are separated (`locate_separated`).
-/

namespace CondRegions

/-! ### Moving markers -/

namespace Span

@[simp] theorem shift_start (s : Span) (offset : Nat) :
    (s.shift offset).start = s.start + offset := rfl

@[simp] theorem shift_stop (s : Span) (offset : Nat) :
    (s.shift offset).stop = s.stop + offset := rfl

end Span

namespace Marker

theorem shift_zero (m : Marker) : m.shift 0 = m := by
  obtain ⟨kind, span, _ | ⟨value, place⟩⟩ := m <;> rfl

/-- Where a marker stands does not matter to its condition. -/
@[simp] theorem keeps_shift (defs : Definitions) (m : Marker) (offset : Nat) :
    (m.shift offset).keeps defs = m.keeps defs := by
  obtain ⟨kind, span, _ | ⟨value, place⟩⟩ := m <;> rfl

end Marker

namespace Bracket

/-- A bracket moved right by `offset` bytes. -/
def shift (offset : Nat) : Bracket → Bracket
  | opening f m => opening f (m.shift offset)
  | closing f m => closing f (m.shift offset)

@[simp] theorem span_shift (b : Bracket) (offset : Nat) :
    (b.shift offset).span = b.span.shift offset := by
  cases b <;> rfl

@[simp] theorem family_shift (b : Bracket) (offset : Nat) : (b.shift offset).family = b.family := by
  cases b <;> rfl

theorem shift_zero (b : Bracket) : b.shift 0 = b := by
  cases b with
  | opening f m => rw [shift, Marker.shift_zero]
  | closing f m => rw [shift, Marker.shift_zero]

end Bracket

namespace Word

open MarkerLine

/-! ### Words of lines -/

/-- The brackets of consecutive lines, the first of which begins at `offset`. -/
def ofLines (families : List Family) (offset : Nat) : List (List Char) → List Bracket
  | [] => []
  | line :: lines =>
    match bracket? families line with
    | some b => b.shift offset :: ofLines families (offset + Text.byteLength line) lines
    | none => ofLines families (offset + Text.byteLength line) lines

/-- **The word of a text.** The markers of the given styles, in the order of their lines. -/
def ofText (families : List Family) (text : List Char) : List Bracket :=
  ofLines families 0 (Text.lines text)

variable {families : List Family} {offset : Nat} {line : List Char} {lines : List (List Char)}

theorem ofLines_cons_some {b : Bracket} (h : bracket? families line = some b) :
    ofLines families offset (line :: lines) =
      b.shift offset :: ofLines families (offset + Text.byteLength line) lines := by
  rw [ofLines, h]

theorem ofLines_cons_none (h : bracket? families line = none) :
    ofLines families offset (line :: lines) =
      ofLines families (offset + Text.byteLength line) lines := by
  rw [ofLines, h]

/-- What is known of the bracket of a line: it has characters and ends on the line. -/
theorem span_of_bracket? {b : Bracket} (h : bracket? families line = some b) :
    b.span.start = 0 ∧ 0 < b.span.stop ∧ b.span.stop ≤ Text.byteLength line ∧
      Text.IsBoundary line b.span.stop := by
  obtain ⟨marker, after, rfl, hne, hspan⟩ := heads_of_bracket? h
  have hspan' : b.span = ⟨0, Text.byteLength marker⟩ := hspan
  rw [hspan', Text.byteLength_append]
  exact ⟨rfl, Text.byteLength_pos hne, Nat.le_add_right _ _, ⟨marker, after, rfl, rfl⟩⟩

/-- **The brackets of lines.** They are the brackets that the lines begin with, moved to where their
lines begin. -/
theorem mem_ofLines {b : Bracket} :
    b ∈ ofLines families offset lines ↔
      ∃ before line after c, lines = before ++ line :: after ∧ bracket? families line = some c ∧
        b = c.shift (offset + Text.byteLength before.flatten) := by
  induction lines generalizing offset with
  | nil =>
    constructor
    · exact fun h => absurd h List.not_mem_nil
    · rintro ⟨before, line, after, c, hlines, -⟩
      exact absurd hlines.symm (List.append_ne_nil_of_right_ne_nil _ (List.cons_ne_nil _ _))
  | cons head lines ih =>
    -- a bracket of the lines behind the first one
    have hrest : b ∈ ofLines families (offset + Text.byteLength head) lines ↔
        ∃ before line after c, head :: lines = (head :: before) ++ line :: after ∧
          bracket? families line = some c ∧
            b = c.shift (offset + Text.byteLength (head :: before).flatten) := by
      simp only [ih, List.cons_append, List.cons.injEq, true_and, List.flatten_cons,
        Text.byteLength_append, Nat.add_assoc]
    constructor
    · intro h
      cases hb : bracket? families head with
      | none =>
        rw [ofLines_cons_none hb] at h
        obtain ⟨before, line, after, c, hc⟩ := hrest.mp h
        exact ⟨head :: before, line, after, c, hc⟩
      | some d =>
        rw [ofLines_cons_some hb] at h
        rcases List.mem_cons.mp h with h | h
        · exact ⟨[], head, lines, d, rfl, hb, h⟩
        · obtain ⟨before, line, after, c, hc⟩ := hrest.mp h
          exact ⟨head :: before, line, after, c, hc⟩
    · rintro ⟨before, line, after, c, hlines, hc, hshift⟩
      cases before with
      | nil =>
        obtain ⟨rfl, rfl⟩ := List.cons.inj hlines
        rw [ofLines_cons_some hc]
        exact List.mem_cons.mpr (.inl hshift)
      | cons first before =>
        obtain rfl : head = first := (List.cons.inj hlines).1
        have h := hrest.mpr ⟨before, line, after, c, hlines, hc, hshift⟩
        cases hb : bracket? families head with
        | none => rwa [ofLines_cons_none hb]
        | some d =>
          rw [ofLines_cons_some hb]
          exact List.mem_cons_of_mem _ h

theorem le_start_of_mem_ofLines {b : Bracket} (h : b ∈ ofLines families offset lines) :
    offset ≤ b.span.start := by
  obtain ⟨before, line, after, c, -, -, rfl⟩ := mem_ofLines.mp h
  rw [Bracket.span_shift, Span.shift_start]
  omega

theorem family_of_mem_ofLines {b : Bracket} (h : b ∈ ofLines families offset lines) :
    b.family ∈ families := by
  obtain ⟨before, line, after, c, -, hc, rfl⟩ := mem_ofLines.mp h
  rw [Bracket.family_shift]
  exact (bracket?_eq_some_iff.mp hc).1

/-- The brackets of one style among those of several. -/
theorem mem_ofLines_singleton {family : Family} (hf : family ∈ families) {b : Bracket} :
    b ∈ ofLines [family] offset lines ↔ b ∈ ofLines families offset lines ∧ b.family = family := by
  constructor
  · intro h
    obtain ⟨before, line, after, c, hlines, hc, rfl⟩ := mem_ofLines.mp h
    obtain ⟨hmem, hof⟩ := bracket?_eq_some_iff.mp hc
    obtain rfl : c.family = family := List.mem_singleton.mp hmem
    exact ⟨mem_ofLines.mpr ⟨before, line, after, c, hlines, bracket?_eq_some_iff.mpr ⟨hf, hof⟩,
      rfl⟩, Bracket.family_shift _ _⟩
  · rintro ⟨h, rfl⟩
    obtain ⟨before, line, after, c, hlines, hc, rfl⟩ := mem_ofLines.mp h
    refine mem_ofLines.mpr ⟨before, line, after, c, hlines, bracket?_eq_some_iff.mpr ⟨?_, ?_⟩, rfl⟩
    · rw [Bracket.family_shift]
      exact List.mem_singleton_self _
    · exact (bracket?_eq_some_iff.mp hc).2

/-- **The word of a text is ordered.** -/
theorem ordered_ofLines (families : List Family) (offset : Nat) (lines : List (List Char)) :
    Ordered (ofLines families offset lines) := by
  induction lines generalizing offset with
  | nil => exact ⟨List.Pairwise.nil, nofun⟩
  | cons line lines ih =>
    have hrest := ih (offset + Text.byteLength line)
    cases hb : bracket? families line with
    | none =>
      rw [ofLines_cons_none hb]
      exact hrest
    | some b =>
      obtain ⟨hstart, hpos, hle, -⟩ := span_of_bracket? hb
      rw [ofLines_cons_some hb]
      -- the bracket ends on its own line, and all others begin on later ones
      refine ⟨List.pairwise_cons.mpr ⟨fun c hc => ?_, hrest.before⟩, ?_⟩
      · have := le_start_of_mem_ofLines hc
        rw [Bracket.Before, Bracket.span_shift, Span.shift_stop]
        omega
      · refine List.forall_mem_cons.mpr ⟨?_, hrest.nonempty⟩
        rw [Bracket.span_shift, Span.shift_start, Span.shift_stop]
        omega

theorem ordered_ofText (families : List Family) (text : List Char) :
    Ordered (ofText families text) :=
  ordered_ofLines families 0 _

/-- Brackets begin and end where characters do. -/
theorem isBoundary_ofText {text : List Char} {b : Bracket} (h : b ∈ ofText families text) :
    Text.IsBoundary text b.span.start ∧ Text.IsBoundary text b.span.stop := by
  obtain ⟨before, line, after, c, hlines, hc, rfl⟩ := mem_ofLines.mp h
  obtain ⟨hstart, -, -, hbound⟩ := span_of_bracket? hc
  have htext : text = before.flatten ++ (line ++ after.flatten) := by
    rw [← Text.flatten_lines text, hlines, List.flatten_append, List.flatten_cons]
  rw [htext, Bracket.span_shift, Span.shift_start, Span.shift_stop, hstart, Nat.zero_add,
    Nat.zero_add, Nat.add_comm c.span.stop]
  exact ⟨(Text.isBoundary_zero _).append_left before.flatten,
    (hbound.append_right after.flatten).append_left before.flatten⟩

/-- **A bracket that takes up the text.** Then the text is one line, and begins with the bracket. -/
theorem lines_of_whole {text : List Char} {b : Bracket} (h : b ∈ ofText families text)
    (hspan : b.span = ⟨0, Text.byteLength text⟩) :
    Text.lines text = [text] ∧ bracket? families text = some b := by
  obtain ⟨before, line, after, c, hlines, hc, rfl⟩ := mem_ofLines.mp h
  obtain ⟨-, -, hle, -⟩ := span_of_bracket? hc
  have htext : text = before.flatten ++ (line ++ after.flatten) := by
    rw [← Text.flatten_lines text, hlines, List.flatten_append, List.flatten_cons]
  have hlen := congrArg Text.byteLength htext
  rw [Text.byteLength_append, Text.byteLength_append] at hlen
  rw [Bracket.span_shift] at hspan
  have hstart : c.span.start + (0 + Text.byteLength before.flatten) = 0 := congrArg Span.start hspan
  have hstop : c.span.stop + (0 + Text.byteLength before.flatten) = Text.byteLength text :=
    congrArg Span.stop hspan
  -- nothing stands before or behind the line
  have hbefore : before.flatten = [] := Text.byteLength_eq_zero.mp (by omega)
  have hafter : after.flatten = [] := Text.byteLength_eq_zero.mp (by omega)
  obtain rfl : text = line := by rw [htext, hbefore, hafter, List.nil_append, List.append_nil]
  refine ⟨?_, by rw [hbefore, hc, Text.byteLength_nil, Bracket.shift_zero]⟩
  have hare := Text.areLines_lines text
  rw [hlines] at hare ⊢
  obtain rfl : before = [] := List.eq_nil_iff_forall_not_mem.mpr fun l hl =>
    hare.nonempty l (List.mem_append_left _ hl) (List.flatten_eq_nil_iff.mp hbefore l hl)
  obtain rfl : after = [] := List.eq_nil_iff_forall_not_mem.mpr fun l hl =>
    hare.nonempty l (List.mem_cons_of_mem _ hl) (List.flatten_eq_nil_iff.mp hafter l hl)
  rfl

/-! ### Located markers -/

/-- The markers that are picked out of the word of some lines are those found line by line, if this
is true of each line. -/
theorem filterMap_ofLines {pick : Bracket → Option Marker} {recognise : List Char → Option Marker}
    (hpick : ∀ b offset, pick (b.shift offset) = (pick b).map (·.shift offset))
    (hline : ∀ line, recognise line = (bracket? families line).bind pick) (offset : Nat)
    (lines : List (List Char)) :
    (ofLines families offset lines).filterMap pick = Markers.onLines recognise offset lines := by
  induction lines generalizing offset with
  | nil => rfl
  | cons line lines ih =>
    rw [Markers.onLines, ← ih, hline line]
    cases hb : bracket? families line with
    | none => rw [ofLines_cons_none hb, Option.bind_none]
    | some b =>
      rw [ofLines_cons_some hb, List.filterMap_cons, hpick, Option.bind_some]
      cases pick b <;> rfl

/-- On a line, the start marker of a style is its opening bracket. -/
theorem startOnLine?_eq_bind (family : Family) (line : List Char) :
    startOnLine? family line = (bracket? [family] line).bind Bracket.opening? := by
  refine Option.ext fun m => ?_
  rw [Option.bind_eq_some_iff]
  constructor
  · intro hs
    exact ⟨.opening family m, bracket?_eq_some_iff.mpr
      ⟨List.mem_singleton_self family, bracketOf?_eq_opening_iff.mpr ⟨rfl, hs⟩⟩, rfl⟩
  · rintro ⟨b, hb, hm⟩
    obtain ⟨hmem, hof⟩ := bracket?_eq_some_iff.mp hb
    obtain rfl : b.family = family := List.mem_singleton.mp hmem
    cases b with
    | opening f n =>
      obtain rfl := Option.some.inj hm
      exact (bracketOf?_eq_opening_iff.mp hof).2
    | closing f n => cases hm

/-- On a line, the end marker of a style is its closing bracket. -/
theorem endOnLine?_eq_bind (family : Family) (line : List Char) :
    endOnLine? family line = (bracket? [family] line).bind Bracket.closing? := by
  refine Option.ext fun m => ?_
  rw [Option.bind_eq_some_iff]
  constructor
  · intro he
    exact ⟨.closing family m, bracket?_eq_some_iff.mpr
      ⟨List.mem_singleton_self family, bracketOf?_eq_closing_iff.mpr ⟨rfl, he⟩⟩, rfl⟩
  · rintro ⟨b, hb, hm⟩
    obtain ⟨hmem, hof⟩ := bracket?_eq_some_iff.mp hb
    obtain rfl : b.family = family := List.mem_singleton.mp hmem
    cases b with
    | opening f n => cases hm
    | closing f n =>
      obtain rfl := Option.some.inj hm
      exact (bracketOf?_eq_closing_iff.mp hof).2

/-- The word of a text in one style has only brackets of that style. -/
theorem family_of_mem_ofText {family : Family} {text : List Char} {b : Bracket}
    (h : b ∈ ofText [family] text) : b.family = family :=
  List.mem_singleton.mp (family_of_mem_ofLines h)

/-- **Located markers.** What `locate` finds are the start and the end markers of the word of the
text. -/
theorem locate_eq_ofText (family : Family) (text : List Char) :
    locate family text = ⟨openings (ofText [family] text), closings (ofText [family] text)⟩ := by
  have hstarts : openings (ofText [family] text) = (locate family text).starts :=
    filterMap_ofLines (fun b _ => by cases b <;> rfl) (startOnLine?_eq_bind family) 0 _
  have hends : closings (ofText [family] text) = (locate family text).ends :=
    filterMap_ofLines (fun b _ => by cases b <;> rfl) (endOnLine?_eq_bind family) 0 _
  rw [hstarts, hends]

theorem mem_starts_locate {family : Family} {text : List Char} {m : Marker} :
    m ∈ (locate family text).starts ↔ .opening family m ∈ ofText [family] text := by
  rw [locate_eq_ofText, mem_openings]
  constructor
  · rintro ⟨f, hf⟩
    obtain rfl : f = family := family_of_mem_ofText hf
    exact hf
  · exact fun h => ⟨family, h⟩

theorem mem_ends_locate {family : Family} {text : List Char} {m : Marker} :
    m ∈ (locate family text).ends ↔ .closing family m ∈ ofText [family] text := by
  rw [locate_eq_ofText, mem_closings]
  constructor
  · rintro ⟨f, hf⟩
    obtain rfl : f = family := family_of_mem_ofText hf
    exact hf
  · exact fun h => ⟨family, h⟩

/-- The brackets of two places of an ordered word do not overlap. -/
theorem Ordered.disjoint_of_ne {w : List Bracket} (hw : Ordered w) {b c : Bracket} (hb : b ∈ w)
    (hc : c ∈ w) (hne : b ≠ c) : b.span.stop ≤ c.span.start ∨ c.span.stop ≤ b.span.start := by
  have key : ∀ x ∈ w, ∀ y ∈ w,
      x ≠ y → x.span.stop ≤ y.span.start ∨ y.span.stop ≤ x.span.start := by
    refine List.Pairwise.forall_of_forall_of_flip (fun x _ h => absurd rfl h)
      (hw.before.imp ?_) (hw.before.imp ?_)
    · intro x y hxy _
      exact .inl hxy
    · intro x y hxy _
      exact .inr hxy
  exact key b hb c hc hne

theorem Ordered.disjoint_of_lt {w : List Bracket} (hw : Ordered w) {b c : Bracket} (hb : b ∈ w)
    (hc : c ∈ w) (hlt : b.span.start < c.span.start) :
    b.span.stop ≤ c.span.start ∨ c.span.stop ≤ b.span.start := by
  refine hw.disjoint_of_ne hb hc ?_
  rintro rfl
  exact absurd hlt (Nat.lt_irrefl _)

/-- The markers of an ordered word are separated. -/
theorem Ordered.separated {w : List Bracket} (hw : Ordered w) :
    Markers.Separated ⟨openings w, closings w⟩ where
  starts_sorted := hw.openings_pairwise_lt.imp Nat.le_of_lt
  ends_sorted := hw.closings_pairwise_lt.imp Nat.le_of_lt
  nonempty := by
    intro m hm
    rcases List.mem_append.mp hm with hm | hm
    · obtain ⟨f, hf⟩ := mem_openings.mp hm
      exact hw.nonempty _ hf
    · obtain ⟨f, hf⟩ := mem_closings.mp hm
      exact hw.nonempty _ hf
  disjoint := by
    -- two markers of one sort have different starts, and a start marker is no end marker
    refine List.pairwise_append.mpr ⟨?_, ?_, fun m hm n hn => ?_⟩
    · refine hw.openings_pairwise_lt.imp_of_mem fun {m n} hm hn hlt => ?_
      obtain ⟨f, hf⟩ := mem_openings.mp hm
      obtain ⟨g, hg⟩ := mem_openings.mp hn
      exact hw.disjoint_of_lt hf hg hlt
    · refine hw.closings_pairwise_lt.imp_of_mem fun {m n} hm hn hlt => ?_
      obtain ⟨f, hf⟩ := mem_closings.mp hm
      obtain ⟨g, hg⟩ := mem_closings.mp hn
      exact hw.disjoint_of_lt hf hg hlt
    · obtain ⟨f, hf⟩ := mem_openings.mp hm
      obtain ⟨g, hg⟩ := mem_closings.mp hn
      exact hw.disjoint_of_ne hf hg nofun

end Word

/-- Located markers are sorted, not empty, and do not overlap. -/
theorem locate_separated (family : Family) (text : List Char) : (locate family text).Separated := by
  rw [Word.locate_eq_ofText]
  exact (Word.ordered_ofText [family] text).separated

end CondRegions
