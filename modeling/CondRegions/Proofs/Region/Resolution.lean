import CondRegions.Proofs.Region.Forest
import Mathlib.Data.List.Forall2

/-!
# What resolving gives

The markers that `resolve` is given are the start and the end markers of an ordered word, and
resolving them is matching that word (`resolve_eq_ok_iff`). Sorting the pairings by start lists them
in the order of the start markers (`Word.map_opening_sort`), so the regions of a resolution are
strictly sorted, and each one lies behind or inside the regions that come before it in the list
(`Region.precedes_of_pairings`). This is all that substitution needs to know.

`resolve_brackets` is the statement on marker lists: resolving succeeds exactly on balanced words,
gives the regions of the matcher with their places and levels, and otherwise reports the first end
marker in excess.
-/

namespace CondRegions

/-! ### Regions in the order of their starts -/

namespace Region

/-- `s` lies behind `r` or between the markers of `r`. -/
def Precedes (r s : Region) : Prop :=
  r.span.stop ≤ s.span.start ∨ r.inner.contains s.span = true

/-- Both markers of a region have characters, and they do not overlap. -/
structure WellFormed (r : Region) : Prop where
  opening_lt : r.span.start < r.inner.start
  inner_le : r.inner.start ≤ r.inner.stop
  closing_lt : r.inner.stop < r.span.stop

end Region

theorem Pairing.WellFormed.toRegion {p : Pairing} (h : p.WellFormed) (defs : Definitions) :
    (p.toRegion defs).WellFormed :=
  ⟨h.opening_lt, h.inner_le, h.closing_lt⟩

namespace Pairing

/-- Pairings in the order of their starts. -/
def sort (ps : List Pairing) : List Pairing :=
  ps.mergeSort fun p q => decide (p.span.start ≤ q.span.start)

theorem sort_perm (ps : List Pairing) : (sort ps).Perm ps :=
  List.mergeSort_perm _ _

theorem mem_sort {p : Pairing} {ps : List Pairing} : p ∈ sort ps ↔ p ∈ ps :=
  (sort_perm ps).mem_iff

/-- Sorting regions is sorting pairings. -/
theorem map_toRegion_sort (defs : Definitions) (ps : List Pairing) :
    Region.sort (ps.map (toRegion defs)) = (sort ps).map (toRegion defs) := by
  refine (List.map_mergeSort ?_).symm
  intro p _ q _
  rfl

end Pairing

namespace Word

variable {w : List Bracket} {ps : List Pairing}

/-- Sorted by start, the pairings come in the order of the start markers of the word. -/
theorem map_opening_sort (hw : Ordered w) (h : pairings [] w = .ok ps) :
    (Pairing.sort ps).map (·.opening) = openings w := by
  -- sorting the pairings by start sorts their start markers, and those of the word are sorted
  have hperm : (ps.map (·.opening)).Perm (openings w) := openings_perm_of_pairings h
  rw [← mergeSort_eq_of_pairwise_lt (fun m : Marker => m.span.start) hw.openings_pairwise_lt hperm]
  refine List.map_mergeSort ?_
  intro p _ q _
  rfl

theorem sort_pairwise_lt (hw : Ordered w) (h : pairings [] w = .ok ps) :
    (Pairing.sort ps).Pairwise fun p q => p.span.start < q.span.start := by
  have hlt := hw.openings_pairwise_lt
  rw [← map_opening_sort hw h] at hlt
  exact hlt.of_map (·.opening) fun p q hpq => hpq

end Word

namespace Region

open Word

variable {w : List Bracket} {ps : List Pairing}

/-- The regions of an ordered word are strictly sorted by start. -/
theorem pairwise_lt_of_pairings (hw : Ordered w) (h : pairings [] w = .ok ps) (defs : Definitions) :
    ((Pairing.sort ps).map (Pairing.toRegion defs)).Pairwise
      fun r s => r.span.start < s.span.start :=
  (sort_pairwise_lt hw h).map _ fun _ _ hlt => hlt

/-- **The forest in a list.** Every region lies behind or inside each region listed before it. -/
theorem precedes_of_pairings (hw : Ordered w) (h : pairings [] w = .ok ps) (defs : Definitions) :
    ((Pairing.sort ps).map (Pairing.toRegion defs)).Pairwise Precedes := by
  refine List.Pairwise.map _ (fun p q hpq => hpq) ((sort_pairwise_lt hw h).imp_of_mem ?_)
  intro p q hp hq hlt
  have hw' : Ordered (stackWord [] ++ w) := hw
  exact Word.precedes_of_pairings hw' h p (Pairing.mem_sort.mp hp) q (Pairing.mem_sort.mp hq) hlt

theorem wellFormed_of_pairings (hw : Ordered w) (h : pairings [] w = .ok ps) (defs : Definitions) :
    ∀ r ∈ (Pairing.sort ps).map (Pairing.toRegion defs), r.WellFormed := by
  intro r hr
  obtain ⟨p, hp, rfl⟩ := List.mem_map.mp hr
  have hw' : Ordered (stackWord [] ++ w) := hw
  exact (Word.wellFormed_of_pairings hw' h p (Pairing.mem_sort.mp hp)).toRegion defs

/-- The level of a region is the number of other regions around it. -/
theorem level_of_pairings (hw : Ordered w) (h : pairings [] w = .ok ps) (defs : Definitions) :
    ∀ r ∈ (Pairing.sort ps).map (Pairing.toRegion defs),
      r.level = (((Pairing.sort ps).map (Pairing.toRegion defs)).filter
        fun q => q != r && q.inner.contains r.span).length := by
  intro r hr
  have hwf := wellFormed_of_pairings hw h defs r hr
  -- a region is not inside itself, so leaving it out changes nothing
  have hother : ∀ q ∈ (Pairing.sort ps).map (Pairing.toRegion defs),
      (q != r && q.inner.contains r.span) = q.inner.contains r.span := by
    intro q _
    by_cases hqr : q = r
    · subst hqr
      have hself : q.inner.contains q.span = false := by
        rw [Span.contains_eq_false]
        have h1 := hwf.opening_lt
        omega
      rw [hself, Bool.and_false]
    · rw [bne_iff_ne.mpr hqr, Bool.true_and]
  obtain ⟨p, hp, rfl⟩ := List.mem_map.mp hr
  rw [List.filter_congr hother, ← List.countP_eq_length_filter, List.countP_map,
    (Pairing.sort_perm ps).countP_eq, Pairing.toRegion_level]
  have hw' : Ordered (stackWord [] ++ w) := hw
  exact Word.level_of_pairings hw' h p (Pairing.mem_sort.mp hp)

end Region

/-! ### Resolving an ordered word -/

open Word

/-- Resolving the markers of an ordered word with as many start as end markers is matching the
word. -/
theorem resolve_eq_of_ordered {family : Family} {w : List Bracket} (hw : Ordered w)
    (hf : ∀ b ∈ w, b.family = family) (hlen : (openings w).length = (closings w).length)
    (defs : Definitions) (source : Source) :
    resolve family ⟨openings w, closings w⟩ defs source =
      match pairings [] w with
      | .error e => .error (e.toDiagnostic family source)
      | .ok ps => .ok {
          regions := (Pairing.sort ps).map (Pairing.toRegion defs)
          diagnostics := (openings w).filterMap (Marker.conditionDiagnostic? source) } := by
  have hpair : Pairing.pair [] (openings w) (closings w) = pairings [] w :=
    pair_eq_pairings hw hf (by simpa using hlen) (.inl rfl)
  rw [resolve, if_neg (not_not_intro hlen)]
  dsimp only
  rw [hpair]
  cases pairings [] w with
  | error e => rfl
  | ok ps => simp only [Pairing.map_toRegion_sort]

/-- **Resolving is matching.** The markers of an ordered word can be resolved exactly if the word
can be matched, and then the regions are those of the pairings, sorted by start. -/
theorem resolve_eq_ok_iff {family : Family} {w : List Bracket} (hw : Ordered w)
    (hf : ∀ b ∈ w, b.family = family) {defs : Definitions} {source : Source} {res : Resolution} :
    resolve family ⟨openings w, closings w⟩ defs source = .ok res ↔
      ∃ ps, pairings [] w = .ok ps ∧ res = {
        regions := (Pairing.sort ps).map (Pairing.toRegion defs)
        diagnostics := (openings w).filterMap (Marker.conditionDiagnostic? source) } := by
  constructor
  · intro h
    -- with unequal numbers resolving reports them and does not pair anything
    have hlen : (openings w).length = (closings w).length := by
      by_contra hne
      rw [resolve, if_pos hne] at h
      exact absurd h nofun
    rw [resolve_eq_of_ordered hw hf hlen] at h
    cases hps : pairings [] w with
    | error e => rw [hps] at h; exact absurd h nofun
    | ok ps =>
      rw [hps] at h
      exact ⟨ps, rfl, (Except.ok.inj h).symm⟩
  · rintro ⟨ps, hps, rfl⟩
    have hlen := (balanced_of_pairings_ok hps).whole.symm
    rw [resolve_eq_of_ordered hw hf hlen, hps]

/-! ### Resolving marker lists -/

/-- A region is that of a pairing: kind, condition and outcome are those of the start marker, and
its places are given by the two markers. -/
structure Region.OfPair (defs : Definitions) (p : Pairing) (r : Region) : Prop where
  kind : r.kind = p.opening.kind
  condition : r.condition = (p.opening.condition.map (·.value)).getD ""
  span : r.span = ⟨p.opening.span.start, p.closing.span.stop⟩
  inner : r.inner = ⟨p.opening.span.stop, p.closing.span.start⟩
  result : r.result = p.opening.keeps defs

/-- **The regions of a word.** They are those of the pairs that the matcher finds, in the order of
their starts. The level of a region is the number of other regions around it, and two regions are
disjoint or one lies between the markers of the other. -/
structure Resolution.MatchesWord (defs : Definitions) (w : List Bracket) (res : Resolution) :
    Prop where
  pairs : ∃ ps qs, Word.pairings [] w = .ok ps ∧ qs.Perm ps ∧
    List.Forall₂ (Region.OfPair defs) qs res.regions
  sorted : res.regions.Pairwise fun r s => r.span.start < s.span.start
  level : ∀ r ∈ res.regions, r.level =
    (res.regions.filter fun q => q != r && q.inner.contains r.span).length
  forest : ∀ r ∈ res.regions, ∀ s ∈ res.regions, r ≠ s →
    r.span.stop ≤ s.span.start ∨ s.span.stop ≤ r.span.start ∨
      r.inner.contains s.span = true ∨ s.inner.contains r.span = true

/-- In a list in which every region lies behind or inside those before it, two regions are disjoint
or one lies inside the other. -/
theorem Region.disjoint_or_inside {rs : List Region} (h : rs.Pairwise Region.Precedes) :
    ∀ r ∈ rs, ∀ s ∈ rs, r ≠ s →
      r.span.stop ≤ s.span.start ∨ s.span.stop ≤ r.span.start ∨
        r.inner.contains s.span = true ∨ s.inner.contains r.span = true := by
  refine List.Pairwise.forall_of_forall_of_flip (fun r _ hne => absurd rfl hne)
    (h.imp ?_) (h.imp ?_)
  · rintro r s (hrs | hrs) -
    · exact .inl hrs
    · exact .inr (.inr (.inl hrs))
  · rintro r s (hrs | hrs) -
    · exact .inr (.inl hrs)
    · exact .inr (.inr (.inr hrs))

/-- The regions that resolving an ordered word gives are those of the word. -/
theorem matchesWord_of_resolve {family : Family} {w : List Bracket} (hw : Ordered w)
    (hf : ∀ b ∈ w, b.family = family) {defs : Definitions} {source : Source} {res : Resolution}
    (h : resolve family ⟨openings w, closings w⟩ defs source = .ok res) :
    res.MatchesWord defs w := by
  obtain ⟨ps, hps, rfl⟩ := (resolve_eq_ok_iff hw hf).mp h
  refine ⟨⟨ps, Pairing.sort ps, hps, Pairing.sort_perm ps, ?_⟩,
    Region.pairwise_lt_of_pairings hw hps defs, Region.level_of_pairings hw hps defs,
    Region.disjoint_or_inside (Region.precedes_of_pairings hw hps defs)⟩
  refine List.forall₂_map_right_iff.mpr (List.forall₂_same.mpr fun p _ => ?_)
  exact ⟨rfl, rfl, rfl, rfl, rfl⟩

/-- **Resolving is bracket matching.** Equally many separated start and end markers can be resolved
exactly if their word is balanced. Then the regions are those of the word; otherwise the error
points to the first end marker at which the end markers outnumber the start markers. -/
theorem resolve_brackets (family : Family) (ms : Markers) (defs : Definitions) (source : Source)
    (hlen : ms.starts.length = ms.ends.length) (hms : ms.Separated) :
    (Word.Balanced (ms.word family) ↔ ∃ res, resolve family ms defs source = .ok res) ∧
    (∀ res, resolve family ms defs source = .ok res → res.MatchesWord defs (ms.word family)) ∧
    (¬ Word.Balanced (ms.word family) →
      ∃ e, Word.FirstExcess (ms.word family) e ∧
        resolve family ms defs source =
          .error ⟨.strayEndMarker family source.name, "markers", source, e.span⟩) := by
  have hw : Ordered (ms.word family) := hms.ordered_word family
  have hf : ∀ b ∈ ms.word family, b.family = family := fun b => Markers.family_of_mem_word
  have hs : openings (ms.word family) = ms.starts := hms.openings_word family
  have he : closings (ms.word family) = ms.ends := hms.closings_word family
  -- the marker lists are those of their own word, so all that is known of words applies
  have hms' : ms = ⟨openings (ms.word family), closings (ms.word family)⟩ := by rw [hs, he]
  have hlen' : (openings (ms.word family)).length = (closings (ms.word family)).length := by
    rw [hs, he, hlen]
  have hres := resolve_eq_of_ordered hw hf hlen' defs source
  rw [← hms'] at hres
  refine ⟨?_, ?_, ?_⟩
  · rw [balanced_iff hf]
    cases hps : pairings [] (ms.word family) with
    | ok ps =>
      rw [hps] at hres
      exact ⟨fun _ => ⟨_, hres⟩, fun _ => ⟨ps, rfl⟩⟩
    | error e =>
      rw [hps] at hres
      constructor
      · rintro ⟨ps, hok⟩
        exact absurd hok nofun
      · rintro ⟨res, hok⟩
        rw [hres] at hok
        exact absurd hok nofun
  · intro res h
    rw [hms'] at h
    exact matchesWord_of_resolve hw hf h
  · intro hnot
    rw [balanced_iff hf] at hnot
    cases hps : pairings [] (ms.word family) with
    | ok ps => exact absurd ⟨ps, hps⟩ hnot
    | error e =>
      rw [hps] at hres
      cases e with
      | stray m => exact ⟨m, firstExcess_of_stray hf hps, hres⟩
      | unclosed m =>
        -- with equal numbers nothing is left open
        have hlt := count_of_pairings_unclosed hps
        rw [List.length_nil, Nat.zero_add, hlen'] at hlt
        exact absurd hlt (Nat.lt_irrefl _)

/-- Two start markers in a row, closed one after the other, with a third pair behind them. -/
def nestedMarkers : Markers where
  starts := [⟨.ifdef, ⟨0, 2⟩, some ⟨"A", ⟨1, 2⟩⟩⟩, ⟨.ifndef, ⟨2, 5⟩, some ⟨"B", ⟨3, 4⟩⟩⟩,
    ⟨.ifdef, ⟨9, 11⟩, none⟩]
  ends := [⟨.endif, ⟨6, 7⟩, none⟩, ⟨.endif, ⟨7, 9⟩, none⟩, ⟨.endif, ⟨11, 12⟩, none⟩]

theorem nestedMarkers_separated : nestedMarkers.Separated where
  starts_sorted := by decide
  ends_sorted := by decide
  nonempty := by decide
  disjoint := by decide

/-- The theorem at markers that nest and touch. -/
theorem resolve_brackets_nested :
    nestedMarkers.starts.length = nestedMarkers.ends.length ∧ nestedMarkers.Separated ∧
    ∃ res, resolve .line nestedMarkers FinMap.empty ⟨"a.js", ""⟩ = .ok res ∧
      res.MatchesWord FinMap.empty (nestedMarkers.word .line) := by
  obtain ⟨res, h⟩ : ∃ res, resolve .line nestedMarkers FinMap.empty ⟨"a.js", ""⟩ = .ok res :=
    ⟨_, rfl⟩
  exact ⟨rfl, nestedMarkers_separated, res, h,
    (resolve_brackets .line nestedMarkers FinMap.empty ⟨"a.js", ""⟩ rfl
      nestedMarkers_separated).2.1 res h⟩

end CondRegions
