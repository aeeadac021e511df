import CondRegions.Proofs.Bracket.Balance
import Mathlib.Data.List.Perm.Basic

/-!
# The forest of regions

The pairings that the matcher finds in an ordered word nest: of two of them, the one that starts
later lies behind the other or between its two markers (`Word.precedes_of_pairings`), and the level
of a pairing is the number of pairings around it (`Word.level_of_pairings`).

Both are proved along the matcher, and both rest on what happens at one closing bracket
(`Word.around_or_after`). There the pairing of the topmost open bracket is made; every pairing made
later belongs to a bracket that is still open, and then lies around it, or to one that is not yet
opened, and then lies behind it. What is on the stack is part of the word that has been read, so the
invariant is that the stack, from the bottom up, with the rest of the word behind it, is ordered.
-/

namespace CondRegions

/-! ### Spans of pairings -/

namespace Pairing

/-- From the start of the start marker to the end of the end marker. -/
def span (p : Pairing) : Span :=
  ⟨p.opening.span.start, p.closing.span.stop⟩

/-- What stands between the two markers. -/
def inner (p : Pairing) : Span :=
  ⟨p.opening.span.stop, p.closing.span.start⟩

@[simp] theorem toRegion_span (defs : Definitions) (p : Pairing) :
    (p.toRegion defs).span = p.span := rfl

@[simp] theorem toRegion_inner (defs : Definitions) (p : Pairing) :
    (p.toRegion defs).inner = p.inner := rfl

@[simp] theorem toRegion_level (defs : Definitions) (p : Pairing) :
    (p.toRegion defs).level = p.level := rfl

/-- Both markers have characters, and they do not overlap. -/
structure WellFormed (p : Pairing) : Prop where
  opening_lt : p.span.start < p.inner.start
  inner_le : p.inner.start ≤ p.inner.stop
  closing_lt : p.inner.stop < p.span.stop

end Pairing

namespace Span

theorem contains_eq_false {s t : Span} :
    s.contains t = false ↔ ¬ (s.start ≤ t.start ∧ t.stop ≤ s.stop) := by
  rw [← contains_eq_true, Bool.not_eq_true]

end Span

namespace Word

/-! ### The markers of the pairings -/

variable {opened : List (Family × Marker)} {w : List Bracket} {ps : List Pairing}

/-- The start markers of the pairings are those that were open and those of the word. -/
theorem openings_perm_of_pairings (h : pairings opened w = .ok ps) :
    (ps.map (·.opening)).Perm (opened.map Prod.snd ++ openings w) := by
  induction w generalizing opened ps with
  | nil =>
    obtain ⟨rfl, rfl⟩ := pairings_nil_ok h
    exact List.Perm.refl _
  | cons b w ih =>
    cases b with
    | opening f m =>
      rw [pairings_opening] at h
      exact (ih h).trans List.perm_middle.symm
    | closing f m =>
      obtain ⟨o, rest, ps', rfl, h', rfl⟩ := pairings_closing_ok h
      exact (ih h').cons o

/-- The end markers of the pairings are those of the word, in order. -/
theorem closings_eq_of_pairings (h : pairings opened w = .ok ps) :
    ps.map (·.closing) = closings w := by
  induction w generalizing opened ps with
  | nil =>
    obtain ⟨-, rfl⟩ := pairings_nil_ok h
    rfl
  | cons b w ih =>
    cases b with
    | opening f m =>
      rw [pairings_opening] at h
      exact ih h
    | closing f m =>
      obtain ⟨o, rest, ps', rfl, h', rfl⟩ := pairings_closing_ok h
      rw [List.map_cons, ih h', closings_closing]

theorem opening_mem_of_pairings {p : Pairing} (h : pairings opened w = .ok ps) (hp : p ∈ ps) :
    p.opening ∈ opened.map Prod.snd ∨ p.opening ∈ openings w :=
  List.mem_append.mp ((openings_perm_of_pairings h).mem_iff.mp (List.mem_map_of_mem hp))

theorem closing_mem_of_pairings {p : Pairing} (h : pairings opened w = .ok ps) (hp : p ∈ ps) :
    p.closing ∈ closings w := by
  rw [← closings_eq_of_pairings h]
  exact List.mem_map_of_mem hp

/-! ### The stack as part of the word -/

/-- The open brackets in the order in which they stand in the text. -/
def stackWord (opened : List (Family × Marker)) : List Bracket :=
  (opened.map fun o => Bracket.opening o.1 o.2).reverse

theorem stackWord_cons_append (f : Family) (m : Marker) :
    stackWord ((f, m) :: opened) ++ w = stackWord opened ++ .opening f m :: w := by
  simp [stackWord]

theorem mem_stackWord {m : Marker} (h : m ∈ opened.map Prod.snd) :
    ∃ f, Bracket.opening f m ∈ stackWord opened := by
  obtain ⟨o, ho, rfl⟩ := List.mem_map.mp h
  exact ⟨o.1, List.mem_reverse.mpr (List.mem_map_of_mem ho)⟩

variable {f g : Family} {o m : Marker}

theorem ordered_after_closing (hw : Ordered (stackWord ((f, o) :: opened) ++ .closing g m :: w)) :
    Ordered (stackWord opened ++ w) := by
  rw [stackWord_cons_append] at hw
  exact hw.sublist ((List.Sublist.refl _).append ((List.Sublist.refl w).cons _ |>.cons _))

/-- The pairing made at a closing bracket is well formed. -/
theorem wellFormed_of_closing (hw : Ordered (stackWord ((f, o) :: opened) ++ .closing g m :: w))
    (level : Nat) : Pairing.WellFormed ⟨o, m, level⟩ := by
  rw [stackWord_cons_append] at hw
  have hr : Ordered (.opening f o :: .closing g m :: w) :=
    hw.sublist (List.sublist_append_right _ _)
  exact ⟨hr.nonempty _ List.mem_cons_self, hr.head_before List.mem_cons_self,
    hr.nonempty _ (List.mem_cons_of_mem _ List.mem_cons_self)⟩

/-- **One closing bracket.** The pairings made after a closing bracket lie around the pairing made
there, and then belong to a bracket that was already open, or behind it. -/
theorem around_or_after (hw : Ordered (stackWord ((f, o) :: opened) ++ .closing g m :: w))
    (h : pairings opened w = .ok ps) {q : Pairing} (hq : q ∈ ps) (level : Nat) :
    (q.opening ∈ opened.map Prod.snd ∧
        q.inner.contains (Pairing.span ⟨o, m, level⟩) = true) ∨
      (q.opening ∈ openings w ∧ m.span.stop ≤ q.span.start) := by
  rw [stackWord_cons_append] at hw
  have hr : Ordered (.opening f o :: .closing g m :: w) :=
    hw.sublist (List.sublist_append_right _ _)
  rcases opening_mem_of_pairings h hq with hin | hin
  · -- still open: it starts before `o` and is closed behind `m`
    obtain ⟨f', hf'⟩ := mem_stackWord hin
    obtain ⟨g', hg'⟩ := mem_closings.mp (closing_mem_of_pairings h hq)
    have h1 : q.opening.span.stop ≤ o.span.start := hw.before_of_append hf' List.mem_cons_self
    have h2 : m.span.stop ≤ q.closing.span.start := hr.tail.head_before hg'
    exact .inl ⟨hin, Span.contains_eq_true.mpr ⟨h1, h2⟩⟩
  · obtain ⟨f', hf'⟩ := mem_openings.mp hin
    exact .inr ⟨hin, hr.tail.head_before hf'⟩

/-! ### Nesting and levels -/

theorem wellFormed_of_pairings (hw : Ordered (stackWord opened ++ w))
    (h : pairings opened w = .ok ps) : ∀ p ∈ ps, p.WellFormed := by
  induction w generalizing opened ps with
  | nil =>
    obtain ⟨-, rfl⟩ := pairings_nil_ok h
    exact fun p hp => absurd hp List.not_mem_nil
  | cons b w ih =>
    cases b with
    | opening f m =>
      rw [pairings_opening] at h
      rw [← stackWord_cons_append] at hw
      exact ih hw h
    | closing f m =>
      obtain ⟨o, rest, ps', rfl, h', rfl⟩ := pairings_closing_ok h
      intro p hp
      -- the pairing made here, and those made later
      rcases List.mem_cons.mp hp with rfl | hp
      · exact wellFormed_of_closing hw _
      · exact ih (ordered_after_closing hw) h' p hp

/-- **Nesting.** Of two pairings, the one that starts later lies behind the other or between its two
markers. -/
theorem precedes_of_pairings (hw : Ordered (stackWord opened ++ w))
    (h : pairings opened w = .ok ps) :
    ∀ p ∈ ps, ∀ q ∈ ps, p.span.start < q.span.start →
      p.span.stop ≤ q.span.start ∨ p.inner.contains q.span = true := by
  induction w generalizing opened ps with
  | nil =>
    obtain ⟨-, rfl⟩ := pairings_nil_ok h
    exact fun p hp => absurd hp List.not_mem_nil
  | cons b w ih =>
    cases b with
    | opening f m =>
      rw [pairings_opening] at h
      rw [← stackWord_cons_append] at hw
      exact ih hw h
    | closing f m =>
      obtain ⟨o, rest, ps', rfl, h', rfl⟩ := pairings_closing_ok h
      have hwf := wellFormed_of_closing hw rest.length
      have hwf' := wellFormed_of_pairings (ordered_after_closing hw) h'
      intro p hp q hq hlt
      rcases List.mem_cons.mp hp with rfl | hp <;> rcases List.mem_cons.mp hq with rfl | hq
      · exact absurd hlt (Nat.lt_irrefl _)
      · -- the new pairing starts first: the other one cannot lie around it
        rcases around_or_after hw h' hq rest.length with ⟨-, hin⟩ | ⟨-, hafter⟩
        · have h1 := (hwf' q hq).opening_lt
          have h2 := (Span.contains_eq_true.mp hin).1
          omega
        · exact .inl hafter
      · -- the new pairing starts last: the other one cannot lie behind it
        rcases around_or_after hw h' hp rest.length with ⟨-, hin⟩ | ⟨-, hafter⟩
        · exact .inr hin
        · have h1 := hwf.opening_lt
          have h2 := hwf.inner_le
          have h3 := hwf.closing_lt
          change m.span.stop ≤ p.span.start at hafter
          simp only [Pairing.span, Pairing.inner] at *
          omega
      · exact ih (ordered_after_closing hw) h' p hp q hq hlt

/-- A pairing lies around the pairing made at a closing bracket exactly if it starts before it. -/
theorem contains_eq_decide_lt (hw : Ordered (stackWord ((f, o) :: opened) ++ .closing g m :: w))
    (h : pairings opened w = .ok ps) {q : Pairing} (hq : q ∈ ps) (level : Nat) :
    q.inner.contains (Pairing.span ⟨o, m, level⟩) =
      decide (q.opening.span.start < o.span.start) := by
  have hwf := wellFormed_of_closing hw level
  have hwfq := wellFormed_of_pairings (ordered_after_closing hw) h q hq
  have h1 := hwf.opening_lt
  have h2 := hwf.inner_le
  have h3 := hwf.closing_lt
  have h4 := hwfq.opening_lt
  -- around it, `q` starts before; behind it, `q` starts later
  rcases around_or_after hw h hq level with ⟨-, hin⟩ | ⟨-, hafter⟩
  · rw [hin, eq_comm, decide_eq_true_iff]
    have h5 := (Span.contains_eq_true.mp hin).1
    simp only [Pairing.span, Pairing.inner] at *
    omega
  · have hlate : ¬ q.opening.span.start < o.span.start := by
      simp only [Pairing.span, Pairing.inner] at *
      omega
    rw [decide_eq_false hlate, Span.contains_eq_false]
    simp only [Pairing.span, Pairing.inner] at *
    omega

/-- The pairings around the one made at a closing bracket are those of the brackets that stay
open. -/
theorem countP_around_closing (hw : Ordered (stackWord ((f, o) :: opened) ++ .closing g m :: w))
    (h : pairings opened w = .ok ps) (level : Nat) :
    ps.countP (fun q => q.inner.contains (Pairing.span ⟨o, m, level⟩)) = opened.length := by
  have hbefore : ∀ n ∈ opened.map Prod.snd, n.span.start < o.span.start := by
    intro n hn
    rw [stackWord_cons_append] at hw
    obtain ⟨f', hf'⟩ := mem_stackWord hn
    have h1 : n.span.stop ≤ o.span.start := hw.before_of_append hf' List.mem_cons_self
    have h2 : n.span.start < n.span.stop := hw.nonempty _ (List.mem_append_left _ hf')
    omega
  have hbehind : ∀ n ∈ openings w, ¬ n.span.start < o.span.start := by
    intro n hn
    obtain ⟨f', hf'⟩ := mem_openings.mp hn
    rw [stackWord_cons_append] at hw
    have h1 : o.span.stop ≤ n.span.start := (hw.sublist (List.sublist_append_right _ _)).head_before
      (b := .opening f o) (List.mem_cons_of_mem _ hf')
    have h2 : o.span.start < o.span.stop :=
      hw.nonempty (.opening f o) (List.mem_append_right _ List.mem_cons_self)
    omega
  -- so it is a matter of counting start markers before `o`, and those are the ones that stay open
  calc ps.countP (fun q => q.inner.contains (Pairing.span ⟨o, m, level⟩))
      = ps.countP (fun q => decide (q.opening.span.start < o.span.start)) :=
        List.countP_congr fun q hq => by rw [contains_eq_decide_lt hw h hq level]
    _ = (ps.map (·.opening)).countP (fun n => decide (n.span.start < o.span.start)) := by
        rw [List.countP_map]
        rfl
    _ = (opened.map Prod.snd ++ openings w).countP
          (fun n => decide (n.span.start < o.span.start)) :=
        (openings_perm_of_pairings h).countP_eq _
    _ = opened.length := by
        rw [List.countP_append, List.countP_eq_length.mpr fun n hn => decide_eq_true (hbefore n hn),
          List.countP_eq_zero.mpr fun n hn => by simpa using hbehind n hn, List.length_map,
          Nat.add_zero]

/-- **Levels.** The level of a pairing is the number of pairings around it. -/
theorem level_of_pairings (hw : Ordered (stackWord opened ++ w))
    (h : pairings opened w = .ok ps) :
    ∀ p ∈ ps, p.level = ps.countP fun q => q.inner.contains p.span := by
  induction w generalizing opened ps with
  | nil =>
    obtain ⟨-, rfl⟩ := pairings_nil_ok h
    exact fun p hp => absurd hp List.not_mem_nil
  | cons b w ih =>
    cases b with
    | opening f m =>
      rw [pairings_opening] at h
      rw [← stackWord_cons_append] at hw
      exact ih hw h
    | closing f m =>
      obtain ⟨o, rest, ps', rfl, h', rfl⟩ := pairings_closing_ok h
      have hwf := wellFormed_of_closing hw rest.length
      intro p hp
      rcases List.mem_cons.mp hp with rfl | hp
      · -- a pairing does not lie between its own markers
        have hself : Span.contains (Pairing.inner ⟨o, m, rest.length⟩)
            (Pairing.span ⟨o, m, rest.length⟩) = false := by
          rw [Span.contains_eq_false]
          have h1 := hwf.opening_lt
          omega
        rw [List.countP_cons_of_neg (by simp [hself]), countP_around_closing hw h']
      · -- the pairing made here does not lie around one that is made later
        have hnot : Span.contains (Pairing.inner ⟨o, m, rest.length⟩) p.span = false := by
          have hwfp := wellFormed_of_pairings (ordered_after_closing hw) h' p hp
          have h1 := hwf.opening_lt
          have h2 := hwf.closing_lt
          have h3 := hwfp.opening_lt
          have h4 := hwfp.inner_le
          have h5 := hwfp.closing_lt
          rw [Span.contains_eq_false]
          rcases around_or_after hw h' hp rest.length with ⟨-, hin⟩ | ⟨-, hafter⟩
          · have h6 := (Span.contains_eq_true.mp hin).1
            omega
          · simp only [Pairing.span, Pairing.inner] at *
            omega
        rw [List.countP_cons_of_neg (by simp [hnot])]
        exact ih (ordered_after_closing hw) h' p hp

end Word

end CondRegions
