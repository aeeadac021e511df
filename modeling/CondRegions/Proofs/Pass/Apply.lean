import CondRegions.Proofs.Pass.Scan
import CondRegions.Transform

/-!
# A pass is a scan

A pass over a text either gives what the scan of its lines lets through and reports nothing but
malformed conditions, or leaves the text as it was and reports that its markers do not pair up. The
first happens exactly if the scan ends with nothing open (`applyFamily_of_run?`,
`applyFamily_of_not_run?`).
-/

namespace CondRegions

open Word Scan

/-! ### Diagnostics of a pass -/

/-- **Structural errors.** A diagnostic of the output says that markers do not pair up. -/
def PassOutput.HasMarkerError (out : PassOutput) : Prop :=
  ∃ d ∈ out.diagnostics, d.cause.category = .marker

/-- Every error of resolving is structural. -/
theorem category_of_resolve_error {family : Family} {ms : Markers} {defs : Definitions}
    {source : Source} {d : Diagnostic} (h : resolve family ms defs source = .error d) :
    d.cause.category = .marker := by
  rw [resolve] at h
  -- the numbers of markers differ, or pairing them fails; both are structural
  split at h
  · obtain rfl := Except.error.inj h
    rfl
  · split at h
    · next e he =>
      obtain rfl := Except.error.inj h
      cases e <;> rfl
    · cases h

/-- What is reported on a condition is not structural. -/
theorem category_of_conditionDiagnostic? {source : Source} {m : Marker} {d : Diagnostic}
    (h : m.conditionDiagnostic? source = some d) : d.cause.category = .condition := by
  rw [Marker.conditionDiagnostic?] at h
  split at h
  · cases h
  · split at h
    · cases h
    · obtain rfl := Option.some.inj h
      rfl

/-! ### Passes -/

theorem substitute_nil (text : List Char) : substitute text [] = text := by
  rw [substitute, Region.sort, List.mergeSort_nil, splice, Text.slice_self]

/-- A text without markers needs no treatment of its own. -/
theorem applyFamily_eq (family : Family) (text : List Char) (defs : Definitions) (path : String) :
    applyFamily family text defs path =
      match resolve family (locate family text) defs ⟨path, String.ofList text⟩ with
      | .ok res => ⟨substitute text res.regions, res.diagnostics⟩
      | .error e => ⟨text, [e]⟩ := by
  by_cases hempty : (locate family text).isEmpty = true
  · obtain ⟨hstarts, hends⟩ : (locate family text).starts = [] ∧
        (locate family text).ends = [] := by
      simpa [Markers.isEmpty] using hempty
    -- without markers there is nothing to pair, so no region comes out and nothing is reported
    have hres : resolve family (locate family text) defs ⟨path, String.ofList text⟩ =
        .ok ⟨[], []⟩ := by
      rw [resolve, hstarts, hends, if_neg (not_not_intro rfl)]
      simp only [Pairing.pair, List.getLast?_nil, List.map_nil, Region.sort, List.mergeSort_nil,
        List.filterMap_nil]
    rw [applyFamily, if_pos hempty, hres]
    simp only [substitute_nil]
  · exact if_neg hempty

variable {family : Family} {text x : List Char} {defs : Definitions}

/-- **A pass that succeeds.** If the scan ends with nothing open, the pass gives what the scan lets
through, and reports no structural error. -/
theorem applyFamily_of_run? (h : run? [family] defs [] (Text.lines text) = some ⟨[], x⟩)
    (path : String) :
    (applyFamily family text defs path).text = x ∧
      ¬ (applyFamily family text defs path).HasMarkerError := by
  obtain ⟨ps, hps, hbytes⟩ := run?_lines_eq_some_iff.mp h
  rw [applyFamily_eq, resolve_locate_eq_ok_iff.mpr ⟨ps, hps, rfl⟩]
  refine ⟨Text.bytes_injective ?_, ?_⟩
  · -- the pass and the scan keep the same bytes, whatever the order of the regions
    rw [bytes_substitute_of_perm hps defs (List.Perm.refl _), hbytes,
      funext (Region.keepsByte_perm ((Pairing.sort_perm ps).map _))]
  · -- what is reported comes from the conditions of start markers
    rintro ⟨d, hd, hcat⟩
    obtain ⟨m, -, hm⟩ := List.mem_filterMap.mp hd
    rw [category_of_conditionDiagnostic? hm] at hcat
    exact absurd hcat nofun

/-- **A pass that fails.** If the scan does not end with nothing open, the text stays as it was, and
a structural error is reported. -/
theorem applyFamily_of_not_run?
    (h : ∀ x, run? [family] defs [] (Text.lines text) ≠ some ⟨[], x⟩) (path : String) :
    (applyFamily family text defs path).text = text ∧
      (applyFamily family text defs path).HasMarkerError := by
  rw [applyFamily_eq]
  cases hres : resolve family (locate family text) defs ⟨path, String.ofList text⟩ with
  | error e => exact ⟨rfl, e, List.mem_singleton_self e, category_of_resolve_error hres⟩
  | ok res =>
    -- a resolution would give pairings, and pairings a scan that ends with nothing open
    obtain ⟨ps, hps, -⟩ := resolve_locate_eq_ok_iff.mp hres
    obtain ⟨x, hx, -⟩ := exists_run?_of_pairings defs hps
    exact absurd hx (h x)

end CondRegions
