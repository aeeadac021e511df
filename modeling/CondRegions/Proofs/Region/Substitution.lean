import CondRegions.Region.Substitute
import CondRegions.Proofs.Region.Resolution
import CondRegions.Proofs.Text.Bytes
import Mathlib.Data.List.TakeWhile

/-!
# What substitution keeps

A byte of the text is kept if every region around it keeps it: the condition of the region holds,
and the byte is not part of one of its markers (`Region.keepsByte`). `splice` is given a stretch of
the text and the regions in it; `Region.Fits` says what it relies on: the regions lie in the
stretch, end where characters end, and are listed so that each one lies behind or inside those
before it. Both calls that `splice` makes keep this up (`Region.Fits.inside`, `Region.Fits.behind`),
so by induction on its recursion it keeps the right bytes (`bytes_splice`).

The slices that `splice` takes are listed by `spliceSpans`. All of them lie in the text and end at
boundaries (`spliceSpans_valid`).
-/

namespace CondRegions

/-! ### Bytes in spans -/

namespace Span

/-- Whether the byte at offset `p` belongs to the span. -/
def covers (s : Span) (p : Nat) : Bool :=
  decide (s.start ≤ p) && decide (p < s.stop)

@[simp] theorem covers_eq_true {s : Span} {p : Nat} :
    s.covers p = true ↔ s.start ≤ p ∧ p < s.stop := by
  simp [covers]

theorem covers_eq_false {s : Span} {p : Nat} :
    s.covers p = false ↔ ¬ (s.start ≤ p ∧ p < s.stop) := by
  rw [← covers_eq_true, Bool.not_eq_true]

/-- Both ends of the span are boundaries of the text, the second not before the first. -/
structure IsSlice (s : Span) (text : List Char) : Prop where
  start_le : s.start ≤ s.stop
  start_boundary : Text.IsBoundary text s.start
  stop_boundary : Text.IsBoundary text s.stop

end Span

namespace Region

/-- **Kept bytes.** Whether every region that the byte at offset `p` belongs to keeps its inner text
and has the byte in it. -/
def keepsByte (rs : List Region) (p : Nat) : Bool :=
  rs.all fun r => !r.span.covers p || (r.result && r.inner.covers p)

theorem keepsByte_eq_true {rs : List Region} {p : Nat} :
    keepsByte rs p = true ↔
      ∀ r ∈ rs, r.span.covers p = true → r.result = true ∧ r.inner.covers p = true := by
  simp only [keepsByte, List.all_eq_true, Bool.or_eq_true, Bool.not_eq_true', Bool.and_eq_true]
  refine forall₂_congr fun r _ => ?_
  cases r.span.covers p <;> simp

/-- The order of the regions does not matter. -/
theorem keepsByte_perm {rs ss : List Region} (h : rs.Perm ss) (p : Nat) :
    keepsByte rs p = keepsByte ss p :=
  h.all_eq

theorem keepsByte_append (rs ss : List Region) (p : Nat) :
    keepsByte (rs ++ ss) p = (keepsByte rs p && keepsByte ss p) :=
  List.all_append

/-- A region does not matter to the bytes outside of it. -/
theorem keepsByte_cons_of_not_covers {r : Region} {rs : List Region} {p : Nat}
    (h : r.span.covers p = false) : keepsByte (r :: rs) p = keepsByte rs p := by
  rw [keepsByte, List.all_cons, h]
  rfl

/-- A region whose condition fails keeps no byte. -/
theorem keepsByte_cons_of_not_result {r : Region} {rs : List Region} {p : Nat}
    (h : r.span.covers p = true) (hr : r.result = false) : keepsByte (r :: rs) p = false := by
  rw [keepsByte, List.all_cons, h, hr]
  rfl

/-- The bytes of markers are not kept. -/
theorem keepsByte_cons_of_marker {r : Region} {rs : List Region} {p : Nat}
    (h : r.span.covers p = true) (hr : r.inner.covers p = false) :
    keepsByte (r :: rs) p = false := by
  rw [keepsByte, List.all_cons, h, hr, Bool.and_false]
  rfl

/-- A region whose condition holds keeps its inner text. -/
theorem keepsByte_cons_of_inner {r : Region} {rs : List Region} {p : Nat}
    (h : r.inner.covers p = true) (hr : r.result = true) :
    keepsByte (r :: rs) p = keepsByte rs p := by
  rw [keepsByte, List.all_cons, h, hr, Bool.and_true, Bool.or_true, Bool.true_and]
  rfl

/-- Regions that a byte does not belong to do not matter to it. -/
theorem keepsByte_of_not_covers {rs : List Region} {p : Nat}
    (h : ∀ r ∈ rs, r.span.covers p = false) : keepsByte rs p = true := by
  refine keepsByte_eq_true.mpr fun r hr hp => ?_
  rw [h r hr] at hp
  exact absurd hp Bool.false_ne_true

/-! ### Regions in a stretch of text -/

/-- The two stretches of a region end where characters end. -/
structure OnBoundaries (text : List Char) (r : Region) : Prop where
  span_start : Text.IsBoundary text r.span.start
  inner_start : Text.IsBoundary text r.inner.start
  inner_stop : Text.IsBoundary text r.inner.stop
  span_stop : Text.IsBoundary text r.span.stop

/-- **What substitution relies on.** The regions lie between `a` and `b`, end at boundaries, and are
listed so that each one lies behind or inside those before it. -/
structure Fits (text : List Char) (a b : Nat) (rs : List Region) : Prop where
  start_boundary : Text.IsBoundary text a
  stop_boundary : Text.IsBoundary text b
  le : a ≤ b
  precedes : rs.Pairwise Precedes
  wellFormed : ∀ r ∈ rs, r.WellFormed
  onBoundaries : ∀ r ∈ rs, r.OnBoundaries text
  within : ∀ r ∈ rs, a ≤ r.span.start ∧ r.span.stop ≤ b

/-- Of regions sorted by start, those from the first that does not start before `stop` on do not. -/
theorem le_start_of_mem_startingFrom {stop : Nat} {rs : List Region}
    (h : rs.Pairwise fun r s => r.span.start < s.span.start) {s : Region}
    (hs : s ∈ startingFrom stop rs) : stop ≤ s.span.start := by
  induction rs with
  | nil => exact absurd hs List.not_mem_nil
  | cons r rs ih =>
    obtain ⟨hr, hrs⟩ := List.pairwise_cons.mp h
    by_cases hlt : r.span.start < stop
    · rw [startingFrom, List.dropWhile_cons_of_pos (by simpa using hlt)] at hs
      exact ih hrs hs
    · rw [startingFrom, List.dropWhile_cons_of_neg (by simpa using hlt)] at hs
      rcases List.mem_cons.mp hs with rfl | hs
      · omega
      · have := hr s hs
        omega

theorem start_lt_of_mem_startingBefore {stop : Nat} {rs : List Region} {s : Region}
    (hs : s ∈ startingBefore stop rs) : s.span.start < stop := by
  have h := List.mem_takeWhile_imp hs
  exact of_decide_eq_true h

theorem startingBefore_append_startingFrom (stop : Nat) (rs : List Region) :
    startingBefore stop rs ++ startingFrom stop rs = rs :=
  List.takeWhile_append_dropWhile

namespace Fits

variable {text : List Char} {a b : Nat} {r s : Region} {rs : List Region}

/-- The regions of a stretch are sorted by start. -/
theorem pairwise_lt (h : Fits text a b rs) :
    rs.Pairwise fun r s => r.span.start < s.span.start := by
  refine h.precedes.imp_of_mem fun {r s} hr _ hrs => ?_
  have hwf := h.wellFormed r hr
  have h1 := hwf.opening_lt
  have h2 := hwf.inner_le
  have h3 := hwf.closing_lt
  rcases hrs with hrs | hrs
  · omega
  · have h4 := (Span.contains_eq_true.mp hrs).1
    omega

/-- A region that starts before the end of the first one lies between its markers. -/
theorem mem_inside (h : Fits text a b (r :: rs)) (hs : s ∈ startingBefore r.span.stop rs) :
    r.inner.start ≤ s.span.start ∧ s.span.stop ≤ r.inner.stop := by
  have hmem : s ∈ rs := (List.takeWhile_sublist _).mem hs
  rcases List.rel_of_pairwise_cons h.precedes hmem with hrs | hrs
  · -- it would start behind the end of `r`
    have := start_lt_of_mem_startingBefore hs
    omega
  · exact Span.contains_eq_true.mp hrs

/-- The other regions start behind it. -/
theorem mem_behind (h : Fits text a b (r :: rs)) (hs : s ∈ startingFrom r.span.stop rs) :
    r.span.stop ≤ s.span.start :=
  le_start_of_mem_startingFrom h.pairwise_lt.tail hs

/-- The first region itself. -/
theorem head (h : Fits text a b (r :: rs)) :
    r.WellFormed ∧ r.OnBoundaries text ∧ a ≤ r.span.start ∧ r.span.stop ≤ b :=
  ⟨h.wellFormed r List.mem_cons_self, h.onBoundaries r List.mem_cons_self,
    h.within r List.mem_cons_self⟩

/-- The stretch between the markers of the first region, with the regions in it. -/
theorem inside (h : Fits text a b (r :: rs)) :
    Fits text r.inner.start r.inner.stop (startingBefore r.span.stop rs) := by
  obtain ⟨hwf, hb, -⟩ := h.head
  have hsub : (startingBefore r.span.stop rs).Sublist (r :: rs) :=
    (List.takeWhile_sublist _).cons r
  exact ⟨hb.inner_start, hb.inner_stop, hwf.inner_le, h.precedes.sublist hsub,
    fun s hs => h.wellFormed s (hsub.mem hs), fun s hs => h.onBoundaries s (hsub.mem hs),
    fun s hs => h.mem_inside hs⟩

/-- The stretch behind the first region, with the regions in it. -/
theorem behind (h : Fits text a b (r :: rs)) :
    Fits text r.span.stop b (startingFrom r.span.stop rs) := by
  obtain ⟨-, hb, -, hle⟩ := h.head
  have hsub : (startingFrom r.span.stop rs).Sublist (r :: rs) :=
    (List.dropWhile_sublist _).cons r
  exact ⟨hb.span_stop, h.stop_boundary, hle, h.precedes.sublist hsub,
    fun s hs => h.wellFormed s (hsub.mem hs), fun s hs => h.onBoundaries s (hsub.mem hs),
    fun s hs => ⟨h.mem_behind hs, (h.within s (hsub.mem hs)).2⟩⟩

/-! Which bytes the regions of a stretch keep, part by part. -/

theorem keepsByte_before (h : Fits text a b (r :: rs)) {p : Nat} (hp : p < r.span.start) :
    keepsByte (r :: rs) p = true := by
  refine keepsByte_of_not_covers fun s hs => ?_
  rw [Span.covers_eq_false]
  rcases List.mem_cons.mp hs with rfl | hs
  · omega
  · have := List.rel_of_pairwise_cons h.pairwise_lt hs
    omega

theorem keepsByte_inside (h : Fits text a b (r :: rs)) (hr : r.result = true) {p : Nat}
    (h1 : r.inner.start ≤ p) (h2 : p < r.inner.stop) :
    keepsByte (r :: rs) p = keepsByte (startingBefore r.span.stop rs) p := by
  have hwf := h.head.1
  have h3 := hwf.closing_lt
  have hbehind : keepsByte (startingFrom r.span.stop rs) p = true := by
    refine keepsByte_of_not_covers fun s hs => Span.covers_eq_false.mpr ?_
    have := h.mem_behind hs
    omega
  rw [keepsByte_cons_of_inner (Span.covers_eq_true.mpr ⟨h1, h2⟩) hr]
  conv_lhs => rw [← startingBefore_append_startingFrom r.span.stop rs]
  rw [keepsByte_append, hbehind, Bool.and_true]

theorem keepsByte_behind (h : Fits text a b (r :: rs)) {p : Nat} (hp : r.span.stop ≤ p) :
    keepsByte (r :: rs) p = keepsByte (startingFrom r.span.stop rs) p := by
  have hwf := h.head.1
  have h1 := hwf.closing_lt
  have hinside : keepsByte (startingBefore r.span.stop rs) p = true := by
    refine keepsByte_of_not_covers fun s hs => Span.covers_eq_false.mpr ?_
    have := (h.mem_inside hs).2
    omega
  rw [keepsByte_cons_of_not_covers (Span.covers_eq_false.mpr (by omega))]
  conv_lhs => rw [← startingBefore_append_startingFrom r.span.stop rs]
  rw [keepsByte_append, hinside, Bool.true_and]

end Fits

end Region

/-! ### Substitution -/

open Region Text

/-- What is kept of the inner text of the first region. -/
theorem selectSlice_inner {text : List Char} {a b : Nat} {r : Region} {rs : List Region}
    (h : Fits text a b (r :: rs)) :
    selectSlice (keepsByte (r :: rs)) text r.inner.start r.inner.stop =
      if r.result then
        selectSlice (keepsByte (startingBefore r.span.stop rs)) text r.inner.start r.inner.stop
      else [] := by
  obtain ⟨hwf, hb, -⟩ := h.head
  have h1 := hwf.opening_lt
  have h2 := hwf.closing_lt
  by_cases hr : r.result = true
  · rw [if_pos hr]
    exact selectSlice_congr hb.inner_start hb.inner_stop hwf.inner_le
      fun p => h.keepsByte_inside hr
  · -- every byte of the stretch belongs to `r`
    rw [if_neg hr]
    refine selectSlice_eq_nil hb.inner_start hb.inner_stop hwf.inner_le fun p hp hq => ?_
    exact keepsByte_cons_of_not_result (Span.covers_eq_true.mpr ⟨by omega, by omega⟩)
      (Bool.eq_false_iff.mpr hr)

/-- **Substitution keeps the right bytes.** Splicing a stretch of text keeps exactly those of its
bytes that every region around them keeps. -/
theorem bytes_splice {text : List Char} {a b : Nat} {rs : List Region} (h : Fits text a b rs) :
    bytes (splice text a b rs) = selectSlice (keepsByte rs) text a b := by
  induction a, b, rs using splice.induct with
  | case1 a b =>
    rw [splice]
    exact (selectSlice_eq_slice h.start_boundary h.stop_boundary h.le fun p _ _ => rfl).symm
  | case2 a b r rs ih₁ ih₂ =>
    obtain ⟨hwf, hb, ha, hle⟩ := h.head
    have h1 := hwf.opening_lt
    have h2 := hwf.inner_le
    have h3 := hwf.closing_lt
    -- before the region, its start marker, its end marker, and behind it
    have hbefore : selectSlice (keepsByte (r :: rs)) text a r.span.start =
        bytes (slice text a r.span.start) :=
      selectSlice_eq_slice h.start_boundary hb.span_start ha fun p _ hp => h.keepsByte_before hp
    have hopening : selectSlice (keepsByte (r :: rs)) text r.span.start r.inner.start = [] := by
      refine selectSlice_eq_nil hb.span_start hb.inner_start (Nat.le_of_lt h1) fun p hp hq => ?_
      exact keepsByte_cons_of_marker (Span.covers_eq_true.mpr ⟨hp, by omega⟩)
        (Span.covers_eq_false.mpr (by omega))
    have hclosing : selectSlice (keepsByte (r :: rs)) text r.inner.stop r.span.stop = [] := by
      refine selectSlice_eq_nil hb.inner_stop hb.span_stop (Nat.le_of_lt h3) fun p hp hq => ?_
      exact keepsByte_cons_of_marker (Span.covers_eq_true.mpr ⟨by omega, hq⟩)
        (Span.covers_eq_false.mpr (by omega))
    have hbehind : selectSlice (keepsByte (r :: rs)) text r.span.stop b =
        selectSlice (keepsByte (startingFrom r.span.stop rs)) text r.span.stop b :=
      selectSlice_congr hb.span_stop h.stop_boundary hle fun p hp _ => h.keepsByte_behind hp
    -- both sides are cut at the four boundaries of the region
    calc bytes (splice text a b (r :: rs))
        = bytes (slice text a r.span.start) ++
            (if r.result then
              selectSlice (keepsByte (startingBefore r.span.stop rs)) text r.inner.start
                r.inner.stop
            else []) ++
            selectSlice (keepsByte (startingFrom r.span.stop rs)) text r.span.stop b := by
          rw [splice, bytes_append, bytes_append, apply_ite bytes, ih₁ h.inside, ih₂ h.behind,
            bytes_nil]
      _ = selectSlice (keepsByte (r :: rs)) text a b := by
          rw [selectSlice_add h.start_boundary hb.span_start h.stop_boundary ha (by omega),
            selectSlice_add hb.span_start hb.inner_start h.stop_boundary (Nat.le_of_lt h1)
              (by omega),
            selectSlice_add hb.inner_start hb.inner_stop h.stop_boundary h2 (by omega),
            selectSlice_add hb.inner_stop hb.span_stop h.stop_boundary (Nat.le_of_lt h3) hle,
            hbefore, hopening, hclosing, hbehind, selectSlice_inner h, List.nil_append,
            List.nil_append, List.append_assoc]

/-! ### The slices taken -/

/-- **The slices of a substitution.** The stretches of text that `splice` copies, in the order in
which it copies them. -/
def spliceSpans (start stop : Nat) : List Region → List Span
  | [] => [⟨start, stop⟩]
  | r :: rs =>
    ⟨start, r.span.start⟩ ::
      ((if r.result then
        spliceSpans r.inner.start r.inner.stop (startingBefore r.span.stop rs) else []) ++
      spliceSpans r.span.stop stop (startingFrom r.span.stop rs))
termination_by rs => rs.length
decreasing_by
  · exact Nat.lt_succ_of_le (List.takeWhile_sublist _).length_le
  · exact Nat.lt_succ_of_le (List.dropWhile_sublist _).length_le

/-- Splicing copies the listed stretches and nothing else, whatever the regions are. -/
theorem splice_eq_flatMap (text : List Char) (a b : Nat) (rs : List Region) :
    splice text a b rs = (spliceSpans a b rs).flatMap fun s => s.extract text := by
  induction a, b, rs using splice.induct with
  | case1 a b =>
    rw [splice, spliceSpans, List.flatMap_singleton]
    rfl
  | case2 a b r rs ih₁ ih₂ =>
    rw [splice, spliceSpans, List.flatMap_cons, List.flatMap_append, ih₁, ih₂, List.append_assoc]
    by_cases hr : r.result = true
    · rw [if_pos hr, if_pos hr]
      rfl
    · rw [if_neg hr, if_neg hr]
      rfl

/-- Every slice that is taken lies in the text and ends at boundaries. -/
theorem spliceSpans_valid {text : List Char} {a b : Nat} {rs : List Region}
    (h : Fits text a b rs) : ∀ s ∈ spliceSpans a b rs, s.IsSlice text := by
  induction a, b, rs using splice.induct with
  | case1 a b =>
    intro s hs
    rw [spliceSpans, List.mem_singleton] at hs
    subst hs
    exact ⟨h.le, h.start_boundary, h.stop_boundary⟩
  | case2 a b r rs ih₁ ih₂ =>
    obtain ⟨-, hb, ha, -⟩ := h.head
    intro s hs
    rw [spliceSpans, List.mem_cons, List.mem_append] at hs
    -- before the region, between its markers, and behind it
    rcases hs with rfl | hs | hs
    · exact ⟨ha, h.start_boundary, hb.span_start⟩
    · split at hs
      · exact ih₁ h.inside s hs
      · exact absurd hs List.not_mem_nil
    · exact ih₂ h.behind s hs

end CondRegions
