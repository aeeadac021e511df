import CondRegions.Proofs.Condition.Place
import CondRegions.Proofs.Marker.Found
import CondRegions.Proofs.Marker.Merged
import CondRegions.Proofs.Pass.Apply
import CondRegions.Proofs.Pass.Elimination

/-!
# What a pass reports

A pass fails softly, in one of two ways. If the markers of its style are not balanced, the text
stays as it was, and there is one diagnostic, which is structural: it gives the numbers of markers
if they differ, and an end marker that closes nothing otherwise (`resolve_of_not_balanced`). If they
are balanced, the text is rewritten, and there is one diagnostic for each start marker whose
condition does not parse, wherever it stands; it points to a place in that condition
(`Diagnostic.Reports`), and the region of the marker is left out, whatever its directive.

`applyFamily_reports` puts the two together.
-/

namespace CondRegions

open Word

/-! ### Reports on conditions -/

/-- Whether a marker has a condition that does not parse. -/
def Marker.isMalformed (m : Marker) : Bool :=
  match m.condition with
  | none => false
  | some c =>
    match Condition.parse c.value with
    | .ok _ => false
    | .error _ => true

/-- **Reports on a condition.** The diagnostic quotes the condition as it stands in the text, and
points to the place in the text where the parser found the error: a single place, inside the
condition and between two characters. -/
def Diagnostic.Reports (text : List Char) (path : String) (d : Diagnostic) (m : Marker) : Prop :=
  ∃ c e, m.condition = some c ∧ Condition.parse c.value = .error e ∧
    d.cause = .malformedCondition (String.ofList (Text.slice text c.span.start c.span.stop))
      e.reason.message ∧
    d.source = ⟨path, String.ofList text⟩ ∧
    d.span.start = e.span.start + c.span.start ∧ d.span.stop = d.span.start ∧
    c.span.start ≤ d.span.start ∧ d.span.start ≤ c.span.stop ∧
    Text.IsBoundary text d.span.start

theorem isSome_conditionDiagnostic? (source : Source) (m : Marker) :
    (m.conditionDiagnostic? source).isSome = m.isMalformed := by
  unfold Marker.conditionDiagnostic? Marker.isMalformed
  cases m.condition with
  | none => rfl
  | some c =>
    dsimp only
    cases Condition.parse c.value <;> rfl

/-- A malformed condition keeps nothing, whatever the directive. -/
theorem Marker.keeps_of_isMalformed {m : Marker} (h : m.isMalformed = true) (defs : Definitions) :
    m.keeps defs = false := by
  unfold Marker.isMalformed at h
  -- the marker has a condition, and it does not parse; the other cases contradict `h`
  split at h
  · cases h
  · next c hc =>
    split at h
    · cases h
    · next e he => exact keeps_of_malformed hc he

/-- A place in a piece of a text is a place in the text. -/
theorem Spanned.StandsIn.isBoundary {c : Spanned String} {text : List Char} (h : c.StandsIn text)
    {p : Nat} (hp : Text.IsBoundary c.value.toList p) :
    Text.IsBoundary text (p + c.span.start) ∧ p + c.span.start ≤ c.span.stop := by
  obtain ⟨before, after, rfl, hspan⟩ := h
  have hle := hp.le
  rw [hspan]
  refine ⟨?_, ?_⟩
  · -- the piece is cut out at boundaries, so its places are moved by its start
    rw [Nat.add_comm]
    exact (hp.append_left before).append_right after
  · show p + Text.byteLength before ≤ Text.byteLength before + Text.byteLength c.value.toList
    omega

/-- **What is reported on a located marker** is a report on its condition. -/
theorem reports_of_conditionDiagnostic? {family : Family} {text : List Char} {m : Marker}
    (hm : m ∈ (locate family text).starts) {path : String} {d : Diagnostic}
    (h : m.conditionDiagnostic? ⟨path, String.ofList text⟩ = some d) : d.Reports text path m := by
  obtain ⟨c, hc, hstands, -, -, first, more, hfirst, hvalue⟩ := exists_condition_of_mem_starts hm
  -- a located condition begins with a character that can be seen
  have hvisible : ∃ x ∈ c.value.toList, isWhiteSpace x = false := by
    obtain ⟨more', hmore'⟩ := Text.trimEnd_cons hfirst more
    rw [hvalue, hmore']
    exact ⟨first, List.mem_cons_self, hfirst⟩
  unfold Marker.conditionDiagnostic? at h
  rw [hc] at h
  dsimp only at h
  split at h
  · cases h
  · next e he =>
    obtain rfl := Option.some.inj h
    -- the error of a condition is at a single place in it
    obtain ⟨hstop, hboundary⟩ := Condition.place_of_parse he hvisible
    obtain ⟨hplace, hle⟩ := hstands.isBoundary hboundary
    refine ⟨c, e, hc, he, ?_, rfl, rfl, ?_, Nat.le_add_left _ _, hle, hplace⟩
    · rw [hstands.slice_eq, String.ofList_toList]
      rfl
    · exact congrArg (· + c.span.start) hstop

/-- The values that a list is mapped to stand in the order of the members that have one. -/
theorem forall₂_filterMap {α β : Type} {f : α → Option β} {R : β → α → Prop} {xs : List α}
    (h : ∀ x ∈ xs, ∀ y, f x = some y → R y x) :
    List.Forall₂ R (xs.filterMap f) (xs.filter fun x => (f x).isSome) := by
  induction xs with
  | nil => exact .nil
  | cons x xs ih =>
    obtain ⟨hfirst, hrest⟩ := List.forall_mem_cons.mp h
    -- a member without a value is left out on both sides
    cases hx : f x with
    | none =>
      rw [List.filterMap_cons_none hx, List.filter_cons_of_neg (by simp [hx])]
      exact ih hrest
    | some y =>
      rw [List.filterMap_cons_some hx, List.filter_cons_of_pos (by simp [hx])]
      exact .cons (hfirst y hx) (ih hrest)

/-- **One report for each malformed condition**, in the order of the markers. -/
theorem forall₂_reports (family : Family) (text : List Char) (path : String) :
    let ms := locate family text
    List.Forall₂ (Diagnostic.Reports text path)
      (ms.starts.filterMap (Marker.conditionDiagnostic? ⟨path, String.ofList text⟩))
      (ms.starts.filter Marker.isMalformed) := by
  intro ms
  have hfilter : ms.starts.filter Marker.isMalformed = ms.starts.filter fun m =>
      (m.conditionDiagnostic? ⟨path, String.ofList text⟩).isSome :=
    List.filter_congr fun m _ => (isSome_conditionDiagnostic? _ m).symm
  rw [hfilter]
  exact forall₂_filterMap fun m hm d hd => reports_of_conditionDiagnostic? hm hd

/-! ### Balance -/

/-- The markers of one style in a text, merged by offset, are the brackets of its lines. -/
theorem word_locate (family : Family) (text : List Char) :
    (locate family text).word family = ofText [family] text := by
  -- both lists have the same brackets, and only one order is ascending
  have hperm := brackets_perm_ofText (List.nodup_singleton family) text
  rw [List.flatMap_cons, List.flatMap_nil, List.append_nil] at hperm
  exact (ordered_ofText [family] text).mergeSort_eq hperm

/-- **Markers that are not balanced.** The error gives the numbers of markers if they differ;
otherwise it is that of an end marker that closes nothing. -/
theorem resolve_of_not_balanced {family : Family} {text : List Char}
    (h : ¬ Balanced (ofText [family] text)) (defs : Definitions) (source : Source) :
    ∃ d, resolve family (locate family text) defs source = .error d ∧
      d.cause = if (locate family text).starts.length = (locate family text).ends.length
        then .strayEndMarker family source.name
        else .imbalancedMarkers family source.name (locate family text).starts.length
          (locate family text).ends.length := by
  have hfamily : ∀ b ∈ ofText [family] text, b.family = family := fun b => family_of_mem_ofText
  by_cases hlen : (locate family text).starts.length = (locate family text).ends.length
  · rw [if_pos hlen]
    rw [locate_eq_ofText] at hlen ⊢
    rw [resolve_eq_of_ordered (ordered_ofText [family] text) hfamily hlen]
    -- with equal numbers the error is that of the matcher
    cases hps : pairings [] (ofText [family] text) with
    | ok ps => exact absurd (balanced_of_pairings_ok hps) h
    | error e =>
      cases e with
      | stray m => exact ⟨_, rfl, rfl⟩
      | unclosed m =>
        -- with equal numbers nothing is left open
        have hlt := count_of_pairings_unclosed hps
        rw [List.length_nil, Nat.zero_add, hlen] at hlt
        exact absurd hlt (Nat.lt_irrefl _)
  · -- the numbers are compared before any marker is paired
    refine ⟨imbalance family (locate family text) source, ?_, (if_neg hlen).symm⟩
    unfold resolve
    exact if_pos hlen

/-! ### Reports of a pass -/

theorem applyFamily_of_not_balanced {family : Family} {text : List Char}
    (h : ¬ Balanced (ofText [family] text)) (defs : Definitions) (path : String) :
    let ms := locate family text
    ∃ d, applyFamily family text defs path = ⟨text, [d]⟩ ∧ d.cause.category = .marker ∧
      d.cause = if ms.starts.length = ms.ends.length then .strayEndMarker family path
        else .imbalancedMarkers family path ms.starts.length ms.ends.length := by
  intro ms
  obtain ⟨d, hd, hcause⟩ := resolve_of_not_balanced h defs ⟨path, String.ofList text⟩
  refine ⟨d, ?_, category_of_resolve_error hd, hcause⟩
  rw [applyFamily_eq, hd]

theorem applyFamily_of_pairings {family : Family} {text : List Char} {ps : List Pairing}
    (h : pairings [] (ofText [family] text) = .ok ps) (defs : Definitions) (path : String) :
    let ms := locate family text
    let regions := (Pairing.sort ps).map (Pairing.toRegion defs)
    let source : Source := ⟨path, String.ofList text⟩
    resolve family ms defs source =
        .ok ⟨regions, ms.starts.filterMap (Marker.conditionDiagnostic? source)⟩ ∧
      applyFamily family text defs path =
        ⟨substitute text regions, ms.starts.filterMap (Marker.conditionDiagnostic? source)⟩ := by
  intro ms regions source
  have hres : resolve family ms defs source =
      .ok ⟨regions, ms.starts.filterMap (Marker.conditionDiagnostic? source)⟩ := by
    refine resolve_locate_eq_ok_iff.mpr ⟨ps, h, ?_⟩
    show Resolution.mk regions ((locate family text).starts.filterMap _) = _
    rw [locate_eq_ofText]
  refine ⟨hres, ?_⟩
  rw [applyFamily_eq, hres]

/-- **Malformed regions are left out.** The start marker opens a region that fails, so no byte of it
is kept, whatever stands in it. -/
theorem dropped_of_isMalformed {families : List Family} {text : List Char} {ps : List Pairing}
    (h : pairings [] (ofText families text) = .ok ps) (defs : Definitions) {m : Marker}
    (hm : m ∈ openings (ofText families text)) (hmalformed : m.isMalformed = true) :
    ∃ r ∈ (Pairing.sort ps).map (Pairing.toRegion defs), r.span.start = m.span.start ∧
      r.inner.start = m.span.stop ∧ r.kind = m.kind ∧ r.result = false ∧
      ∀ p, r.span.covers p = true →
        Region.keepsByte ((Pairing.sort ps).map (Pairing.toRegion defs)) p = false := by
  -- every start marker of the word is that of a pair
  have hopening : m ∈ ps.map (·.opening) := (openings_perm_of_pairings h).mem_iff.mpr hm
  obtain ⟨p, hp, rfl⟩ := List.mem_map.mp hopening
  have hresult : (p.toRegion defs).result = false := Marker.keeps_of_isMalformed hmalformed defs
  have hr : p.toRegion defs ∈ (Pairing.sort ps).map (Pairing.toRegion defs) :=
    List.mem_map_of_mem (Pairing.mem_sort.mpr hp)
  refine ⟨p.toRegion defs, hr, rfl, rfl, rfl, hresult, fun q hq => ?_⟩
  -- the region is put in front, and decides about its bytes alone
  rw [Region.keepsByte_perm (List.perm_cons_erase hr)]
  exact Region.keepsByte_cons_of_not_result hq hresult

/-- **What a pass reports.** The text stays as it was, with a single structural diagnostic, exactly
if the markers of the style are not balanced; the diagnostic gives the two numbers of markers if
they differ, and is that of a stray end marker otherwise. If the markers are balanced, there is one
report for each start marker whose condition does not parse, in ascending order, and the regions of
these markers are left out of the text. -/
theorem applyFamily_reports (family : Family) (text : List Char) (defs : Definitions)
    (path : String) :
    let ms := locate family text
    let out := applyFamily family text defs path
    (¬ Balanced (ms.word family) ↔
      out.text = text ∧ ∃ d, out.diagnostics = [d] ∧ d.cause.category = .marker) ∧
    (¬ Balanced (ms.word family) → ∃ d, out.diagnostics = [d] ∧
      d.cause = if ms.starts.length = ms.ends.length then .strayEndMarker family path
        else .imbalancedMarkers family path ms.starts.length ms.ends.length) ∧
    (Balanced (ms.word family) →
      List.Forall₂ (Diagnostic.Reports text path) out.diagnostics
        (ms.starts.filter Marker.isMalformed) ∧
      ms.starts.Pairwise (fun m n => m.span.start < n.span.start) ∧
      ∃ regions, resolve family ms defs ⟨path, String.ofList text⟩ =
        .ok ⟨regions, out.diagnostics⟩ ∧
        Text.bytes out.text = Text.select (Region.keepsByte regions) text ∧
        ∀ m ∈ ms.starts, m.isMalformed = true →
          ∃ r ∈ regions, r.span.start = m.span.start ∧ r.inner.start = m.span.stop ∧
            r.kind = m.kind ∧ r.result = false ∧
            ∀ p, r.span.covers p = true → Region.keepsByte regions p = false) := by
  intro ms out
  have hfamily : ∀ b ∈ ofText [family] text, b.family = family := fun b => family_of_mem_ofText
  have hordered := ordered_ofText [family] text
  have hstarts : ms.starts = openings (ofText [family] text) :=
    congrArg Markers.starts (locate_eq_ofText family text)
  -- the markers, merged by offset, are the brackets that the lines of the text have
  rw [show ms.word family = ofText [family] text from word_locate family text]
  refine ⟨⟨?_, ?_⟩, ?_, ?_⟩
  · intro hnot
    obtain ⟨d, hout, hcategory, -⟩ := applyFamily_of_not_balanced hnot defs path
    rw [show out = _ from hout]
    exact ⟨rfl, d, rfl, hcategory⟩
  · rintro ⟨-, d, hd, hcategory⟩ hbalanced
    -- of balanced markers, only conditions are reported
    obtain ⟨ps, hps⟩ := (balanced_iff hfamily).mp hbalanced
    obtain ⟨-, hout⟩ := applyFamily_of_pairings hps defs path
    have hmem : d ∈ out.diagnostics := by
      rw [hd]
      exact List.mem_singleton_self d
    rw [show out = _ from hout] at hmem
    obtain ⟨m, -, hm⟩ := List.mem_filterMap.mp hmem
    rw [category_of_conditionDiagnostic? hm] at hcategory
    cases hcategory
  · intro hnot
    obtain ⟨d, hout, -, hcause⟩ := applyFamily_of_not_balanced hnot defs path
    rw [show out = _ from hout]
    exact ⟨d, rfl, hcause⟩
  · -- balanced markers have pairings, from which regions and reports are read off
    intro hbalanced
    obtain ⟨ps, hps⟩ := (balanced_iff hfamily).mp hbalanced
    obtain ⟨hres, hout⟩ := applyFamily_of_pairings hps defs path
    rw [show out = _ from hout]
    refine ⟨forall₂_reports family text path, ?_, _, hres,
      bytes_substitute_of_perm hps defs (List.Perm.refl _), ?_⟩
    · rw [hstarts]
      exact hordered.openings_pairwise_lt
    · intro m hm hmalformed
      rw [hstarts] at hm
      exact dropped_of_isMalformed hps defs hm hmalformed

end CondRegions
