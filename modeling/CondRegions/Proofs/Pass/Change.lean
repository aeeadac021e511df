import CondRegions.Proofs.Pass.Inspection
import CondRegions.Proofs.Pass.Remainder

/-!
# Changed sources

Whether a source is changed is found out by comparing it with the transformed code. This tells no
more and no less than the reports of an inspection do: a source is changed exactly if some pass
resolves a region.

A pass never adds anything: the text that it leaves is the text before with characters left out
(`applyFamily_sublist`). If it resolves a region, the first byte of the start marker is left out,
whatever the condition says and whatever stands between the markers, so the text gets shorter
(`byteLength_applyFamily_lt`). If it resolves none, because there is none or because the markers do
not pair up, the text stays (`applyFamily_of_no_regions`). Lengths only go down, so no pass can undo
what an earlier one did (`applyFamilies_cases`), and comparing the two ends of the transformation is
enough (`transform_changed_iff`).
-/

namespace CondRegions

open Word Scan

variable {family : Family} {families : List Family} {text : List Char} {defs : Definitions}
  {path : String}

/-! ### Parts that are left out -/

/-- A selection that leaves out a byte is shorter than the text. -/
theorem Text.length_select_lt {keep : Nat → Bool} {p : Nat} (hp : p < byteLength text)
    (hdrop : keep p = false) : (select keep text).length < byteLength text := by
  -- the byte at `p` is one of those that are filtered, and it does not pass
  have hbyte : ∃ b ∈ (bytes text).zipIdx, ¬ keep b.2 = true := by
    rw [← length_bytes] at hp
    refine ⟨((bytes text)[p], p), ?_, ?_⟩
    · exact List.mk_mem_zipIdx_iff_getElem?.mpr (List.getElem?_eq_getElem hp)
    · rw [hdrop]
      exact Bool.false_ne_true
  calc (select keep text).length
      = ((bytes text).zipIdx.filter fun b => keep b.2).length := List.length_map _
    _ < (bytes text).zipIdx.length := List.length_filter_lt_length_iff_exists.mpr hbyte
    _ = byteLength text := by rw [List.length_zipIdx, length_bytes]

/-- Ends of lines, some lines left out, make up a text with characters left out. -/
theorem Text.flatten_sublist_of_suffixes {lines left : List (List Char)}
    (h : List.SublistForall₂ (fun rest line => rest <:+ line) left lines) :
    left.flatten.Sublist lines.flatten := by
  -- line by line: a line is left out, or an end of it stays
  induction h with
  | nil => exact List.nil_sublist _
  | cons_right _ ih => exact ih.trans (List.sublist_append_right _ _)
  | cons hsuffix _ ih => exact hsuffix.sublist.append ih

/-- A text with characters left out has fewer of them, if it has fewer bytes. -/
theorem Text.length_lt_of_sublist {left : List Char} (h : left.Sublist text)
    (hbytes : byteLength left < byteLength text) : left.length < text.length := by
  refine Nat.lt_of_le_of_ne h.length_le fun heq => ?_
  -- texts with the same number of characters would be equal
  rw [h.eq_of_length heq] at hbytes
  exact Nat.lt_irrefl _ hbytes

/-! ### One pass -/

/-- **A pass leaves out characters** and adds none. -/
theorem applyFamily_sublist (family : Family) (text : List Char) (defs : Definitions)
    (path : String) : (applyFamily family text defs path).text.Sublist text := by
  by_cases h : ∃ x, run? [family] defs [] (Text.lines text) = some ⟨[], x⟩
  · obtain ⟨x, hx⟩ := h
    -- the scan lets through ends of lines
    obtain ⟨pieces, hpieces, hremain⟩ := pieces_of_run? hx
    rw [(applyFamily_of_run? hx path).1, show x = pieces.flatten from hpieces]
    conv_rhs => rw [← Text.flatten_lines text]
    apply Text.flatten_sublist_of_suffixes
    obtain ⟨origins, hforall, hsublist⟩ := List.sublistForall₂_iff.mp hremain
    exact List.sublistForall₂_iff.mpr ⟨origins, hforall.imp fun _ _ h => h.2.suffix, hsublist⟩
  · -- a pass that fails leaves the text as it is
    rw [(applyFamily_of_not_run? (not_exists.mp h) path).1]

/-- A pass without regions leaves the text as it is. -/
theorem applyFamily_of_no_regions (h : (reportFamily family text defs path).regions = []) :
    (applyFamily family text defs path).text = text := by
  have hsubstituted := (describes_reportFamily family text defs path).substituted
  rw [h, text_reportFamily, substitute_nil] at hsubstituted
  exact hsubstituted.symm

/-- **The first byte of a region is not kept**, whether the condition of the region holds or not. -/
theorem Region.keepsByte_start {rs : List Region} {r : Region} (hr : r ∈ rs) (hwf : r.WellFormed) :
    keepsByte rs r.span.start = false := by
  have hopening := hwf.opening_lt
  have hinner := hwf.inner_le
  have hclosing := hwf.closing_lt
  refine Bool.eq_false_iff.mpr fun hkeeps => ?_
  have hcovers : r.span.covers r.span.start = true :=
    Span.covers_eq_true.mpr ⟨Nat.le_refl _, by omega⟩
  -- it is a byte of the start marker, which stands before the inner text
  have hin := (keepsByte_eq_true.mp hkeeps r hr hcovers).2
  have hle := (Span.covers_eq_true.mp hin).1
  omega

/-- **A pass with a region** leaves a text with fewer bytes. -/
theorem byteLength_applyFamily_lt (h : (reportFamily family text defs path).regions ≠ []) :
    Text.byteLength (applyFamily family text defs path).text < Text.byteLength text := by
  unfold reportFamily at h
  rw [applyFamily_eq]
  cases hres : resolve family (locate family text) defs ⟨path, String.ofList text⟩ with
  | error e =>
    -- markers that do not pair up give no regions
    rw [hres] at h
    exact absurd rfl h
  | ok res =>
    rw [hres] at h
    obtain ⟨ps, hps, rfl⟩ := resolve_locate_eq_ok_iff.mp hres
    -- any region will do, since its first byte is left out
    obtain ⟨r, hr⟩ := List.exists_mem_of_ne_nil _ h
    have hfits := Region.fits_of_pairings hps defs
    have hwf := hfits.wellFormed r hr
    have hstart : r.span.start < Text.byteLength text := by
      have hopening := hwf.opening_lt
      have hinner := hwf.inner_le
      have hclosing := hwf.closing_lt
      have hstop := (hfits.onBoundaries r hr).span_stop.le
      omega
    show Text.byteLength (substitute text _) < Text.byteLength text
    rw [← Text.length_bytes, bytes_substitute_of_perm hps defs (List.Perm.refl _)]
    exact Text.length_select_lt hstart (Region.keepsByte_start hr hwf)

/-! ### Passes one after the other -/

theorem applyFamilies_sublist (families : List Family) (text : List Char) (defs : Definitions)
    (path : String) : (applyFamilies families text defs path).text.Sublist text := by
  induction families generalizing text with
  | nil => exact List.Sublist.refl text
  | cons family families ih =>
    rw [applyFamilies_cons]
    exact (ih _).trans (applyFamily_sublist family text defs path)

/-- **Passes and their reports.** Either no report has a region, and the text stays, or some report
has one, and the text that is left in the end has fewer bytes. -/
theorem applyFamilies_cases (families : List Family) (text : List Char) (defs : Definitions)
    (path : String) :
    ((∀ report ∈ inspectFamilies text defs path families, report.regions = []) ∧
      (applyFamilies families text defs path).text = text) ∨
    ((∃ report ∈ inspectFamilies text defs path families, report.regions ≠ []) ∧
      Text.byteLength (applyFamilies families text defs path).text < Text.byteLength text) := by
  -- the texts of the later passes are those that the first one leaves
  induction families generalizing text with
  | nil => exact .inl ⟨nofun, rfl⟩
  | cons family families ih =>
    rw [inspectFamilies_cons, applyFamilies_cons]
    have hlater := ih (applyFamily family text defs path).text
    by_cases hfirst : (reportFamily family text defs path).regions = []
    · -- the first pass does nothing, so all depends on the later ones
      rw [applyFamily_of_no_regions hfirst] at hlater ⊢
      rcases hlater with ⟨hnone, htext⟩ | ⟨⟨report, hreport, hregions⟩, hlt⟩
      · exact .inl ⟨List.forall_mem_cons.mpr ⟨hfirst, hnone⟩, htext⟩
      · exact .inr ⟨⟨report, List.mem_cons_of_mem _ hreport, hregions⟩, hlt⟩
    · -- the first pass shortens the text, and the later ones do not make it longer again
      have hlt := byteLength_applyFamily_lt hfirst
      refine .inr ⟨⟨_, List.mem_cons_self, hfirst⟩, ?_⟩
      rcases hlater with ⟨-, htext⟩ | ⟨-, hlt'⟩
      · rw [htext]
        exact hlt
      · exact Nat.lt_trans hlt' hlt

/-! ### A whole source -/

theorem transform_cases (source path : String) (defs : Definitions) :
    ((∀ report ∈ inspect source path defs, report.regions = []) ∧
      (transform source path defs).code = source) ∨
    ((∃ report ∈ inspect source path defs, report.regions ≠ []) ∧
      Text.byteLength (transform source path defs).code.toList <
        Text.byteLength source.toList) := by
  have hcode : (transform source path defs).code =
      String.ofList (applyFamilies Family.passOrder source.toList defs path).text := rfl
  rw [hcode, String.toList_ofList]
  rcases applyFamilies_cases Family.passOrder source.toList defs path with
    ⟨hnone, htext⟩ | ⟨hsome, hlt⟩
  · exact .inl ⟨hnone, by rw [htext, String.ofList_toList]⟩
  · exact .inr ⟨hsome, hlt⟩

/-- **Changed sources.** A source is changed exactly if some report of its inspection has a region.
The code is the source with characters left out; with a region it is strictly shorter, in bytes and
in characters, and without one it is the source itself, whatever structural errors there are. -/
theorem transform_changed_iff (source path : String) (defs : Definitions) :
    ((transform source path defs).changed = true ↔
      ∃ report ∈ inspect source path defs, report.regions ≠ []) ∧
    (transform source path defs).code.toList.Sublist source.toList ∧
    ((∃ report ∈ inspect source path defs, report.regions ≠ []) →
      Text.byteLength (transform source path defs).code.toList < Text.byteLength source.toList ∧
      (transform source path defs).code.length < source.length) ∧
    ((∀ report ∈ inspect source path defs, report.regions = []) →
      (transform source path defs).code = source) := by
  -- the flag compares the two texts
  have hchanged : (transform source path defs).changed = true ↔
      (transform source path defs).code ≠ source := by
    simp only [transform, bne_iff_ne]
  have hsublist : (transform source path defs).code.toList.Sublist source.toList := by
    rw [show (transform source path defs).code.toList =
      (applyFamilies Family.passOrder source.toList defs path).text from String.toList_ofList]
    exact applyFamilies_sublist Family.passOrder source.toList defs path
  rw [hchanged]
  rcases transform_cases source path defs with ⟨hnone, heq⟩ | ⟨hsome, hlt⟩
  · -- no report has a region, and the two texts are equal
    have hnot : ¬ ∃ report ∈ inspect source path defs, report.regions ≠ [] := by
      rintro ⟨report, hreport, hregions⟩
      exact hregions (hnone report hreport)
    exact ⟨⟨fun hne => absurd heq hne, fun hsome => absurd hsome hnot⟩, hsublist,
      fun hsome => absurd hsome hnot, fun _ => heq⟩
  · -- some report has one, and texts of different lengths are different
    have hne : (transform source path defs).code ≠ source := by
      intro heq
      rw [heq] at hlt
      exact Nat.lt_irrefl _ hlt
    refine ⟨⟨fun _ => hsome, fun _ => hne⟩, hsublist, fun _ => ⟨hlt, ?_⟩, fun hnone => ?_⟩
    · rw [← String.length_toList, ← String.length_toList]
      exact Text.length_lt_of_sublist hsublist hlt
    · obtain ⟨report, hreport, hregions⟩ := hsome
      exact absurd (hnone report hreport) hregions

/-- A region that is kept and has nothing in it counts as a change, a start marker alone does
not. -/
example : (transform "a\n// #ifdef true\n// #endif\nb" "x" .empty).changed = true ∧
    (transform "a\n// #ifdef true\nb" "x" .empty).changed = false := by decide +kernel

end CondRegions
