import CondRegions.Proofs.Region.Substitution
import CondRegions.Proofs.Marker.Located

/-!
# Rewriting a text

The regions that resolving finds in a text fit the text (`Region.fits_of_pairings`): they are those
of its word, whose brackets lie in the text and begin and end at boundaries. What is known of
substitution in a stretch of text then holds of the whole text, whatever the order in which the
regions are given (`bytes_substitute`).
-/

namespace CondRegions

open Word

/-! ### Resolving a text -/

/-- Resolving the markers of one style in a text is matching the word of the text. -/
theorem resolve_locate_eq_ok_iff {family : Family} {text : List Char} {defs : Definitions}
    {source : Source} {res : Resolution} :
    resolve family (locate family text) defs source = .ok res ↔
      ∃ ps, pairings [] (ofText [family] text) = .ok ps ∧ res = {
        regions := (Pairing.sort ps).map (Pairing.toRegion defs)
        diagnostics :=
          (openings (ofText [family] text)).filterMap (Marker.conditionDiagnostic? source) } := by
  rw [locate_eq_ofText]
  exact resolve_eq_ok_iff (ordered_ofText [family] text) fun b => family_of_mem_ofText

namespace Region

variable {families : List Family} {text : List Char} {ps : List Pairing}

/-- The markers of the pairings of a text begin and end at boundaries. -/
theorem onBoundaries_of_pairings (h : pairings [] (ofText families text) = .ok ps)
    (defs : Definitions) {p : Pairing} (hp : p ∈ ps) : (p.toRegion defs).OnBoundaries text := by
  have hopening : p.opening ∈ openings (ofText families text) :=
    (opening_mem_of_pairings h hp).resolve_left List.not_mem_nil
  obtain ⟨f, hf⟩ := mem_openings.mp hopening
  obtain ⟨g, hg⟩ := mem_closings.mp (closing_mem_of_pairings h hp)
  exact ⟨(isBoundary_ofText hf).1, (isBoundary_ofText hf).2, (isBoundary_ofText hg).1,
    (isBoundary_ofText hg).2⟩

/-- **Resolved regions fit.** The regions of the word of a text fit the text. -/
theorem fits_of_pairings (h : pairings [] (ofText families text) = .ok ps) (defs : Definitions) :
    Fits text 0 (Text.byteLength text) ((Pairing.sort ps).map (Pairing.toRegion defs)) := by
  have hw := ordered_ofText families text
  have hbounds : ∀ r ∈ (Pairing.sort ps).map (Pairing.toRegion defs), r.OnBoundaries text := by
    intro r hr
    obtain ⟨p, hp, rfl⟩ := List.mem_map.mp hr
    exact onBoundaries_of_pairings h defs (Pairing.mem_sort.mp hp)
  exact ⟨Text.isBoundary_zero text, Text.isBoundary_byteLength text, Nat.zero_le _,
    precedes_of_pairings hw h defs, wellFormed_of_pairings hw h defs, hbounds,
    fun r hr => ⟨Nat.zero_le _, (hbounds r hr).span_stop.le⟩⟩

/-- However the regions of a text are listed, sorting them by start gives the list that fits. -/
theorem sort_eq_of_perm (h : pairings [] (ofText families text) = .ok ps) (defs : Definitions)
    {regions : List Region} (hperm : regions.Perm ((Pairing.sort ps).map (Pairing.toRegion defs))) :
    Region.sort regions = (Pairing.sort ps).map (Pairing.toRegion defs) :=
  mergeSort_eq_of_pairwise_lt (fun r : Region => r.span.start)
    (pairwise_lt_of_pairings (ordered_ofText families text) h defs) hperm

end Region

/-- What substitution keeps of a text, in whatever order the regions of its word are given. -/
theorem bytes_substitute_of_perm {families : List Family} {text : List Char} {ps : List Pairing}
    (h : Word.pairings [] (ofText families text) = .ok ps) (defs : Definitions)
    {regions : List Region} (hperm : regions.Perm ((Pairing.sort ps).map (Pairing.toRegion defs))) :
    Text.bytes (substitute text regions) = Text.select (Region.keepsByte regions) text := by
  have hkeeps : Region.keepsByte regions =
      Region.keepsByte ((Pairing.sort ps).map (Pairing.toRegion defs)) :=
    funext (Region.keepsByte_perm hperm)
  rw [substitute, Region.sort_eq_of_perm h defs hperm,
    bytes_splice (Region.fits_of_pairings h defs), hkeeps, Text.select_eq_selectSlice]

/-! ### What rewriting keeps -/

/-- **Rewriting keeps exactly the right bytes.** Let the markers of one style in a text be resolved,
and let the regions be given in any order. Then substitution keeps, in order, the bytes that every
region around them keeps. Nothing is kept of a region whose condition fails, nor of a marker;
between the markers of a region whose condition holds only the other regions matter. All slices that
are taken lie in the text and end at boundaries. -/
theorem bytes_substitute (family : Family) (text : List Char) (defs : Definitions) (source : Source)
    (res : Resolution) (h : resolve family (locate family text) defs source = .ok res)
    (regions : List Region) (hperm : regions.Perm res.regions) :
    Text.bytes (substitute text regions) = Text.select (Region.keepsByte regions) text ∧
    (∀ r ∈ regions, ∀ p, r.span.covers p = true → r.result = false ∨ r.inner.covers p = false →
      Region.keepsByte regions p = false) ∧
    (∀ r ∈ regions, r.result = true → ∀ p, r.inner.covers p = true →
      Region.keepsByte regions p = Region.keepsByte (regions.erase r) p) ∧
    substitute text regions =
      (spliceSpans 0 (Text.byteLength text) (Region.sort regions)).flatMap (·.extract text) ∧
    ∀ s ∈ spliceSpans 0 (Text.byteLength text) (Region.sort regions), s.IsSlice text := by
  obtain ⟨ps, hps, rfl⟩ := resolve_locate_eq_ok_iff.mp h
  have hsort := Region.sort_eq_of_perm hps defs hperm
  have hfits := Region.fits_of_pairings hps defs
  rw [← hsort] at hfits
  refine ⟨bytes_substitute_of_perm hps defs hperm, ?_, ?_, splice_eq_flatMap _ _ _ _,
    spliceSpans_valid hfits⟩
  · -- the order does not matter, so `r` can be taken as the first region
    intro r hr p hp hdrop
    rw [Region.keepsByte_perm (List.perm_cons_erase hr)]
    rcases hdrop with hresult | hmarker
    · exact Region.keepsByte_cons_of_not_result hp hresult
    · exact Region.keepsByte_cons_of_marker hp hmarker
  · intro r hr hresult p hp
    rw [Region.keepsByte_perm (List.perm_cons_erase hr)]
    exact Region.keepsByte_cons_of_inner hp hresult

/-- A region that is dropped with the region inside it, and behind it, without anything between
them, one that is kept. -/
def siblingText : List Char :=
  "é\n//#ifdef B\n//#ifdef A\nb\n//#endif\n//#endif\n//#ifndef B\nü\n//#endif\n".toList

/-- Only `A` is defined. -/
def siblingDefs : Definitions := FinMap.ofList [("A", .bool true)]

/-- The pairs of its markers, as the matcher finds them. -/
def siblingPairings : List Pairing :=
  [⟨⟨.ifdef, ⟨14, 25⟩, some ⟨"A", ⟨23, 24⟩⟩⟩, ⟨.endif, ⟨27, 36⟩, none⟩, 1⟩,
    ⟨⟨.ifdef, ⟨3, 14⟩, some ⟨"B", ⟨12, 13⟩⟩⟩, ⟨.endif, ⟨36, 45⟩, none⟩, 0⟩,
    ⟨⟨.ifndef, ⟨45, 57⟩, some ⟨"B", ⟨55, 56⟩⟩⟩, ⟨.endif, ⟨60, 69⟩, none⟩, 0⟩]

/-- The theorem at a text with regions that nest and touch, listed in reverse. -/
theorem bytes_substitute_siblings :
    ∃ res, resolve .line (locate .line siblingText) siblingDefs ⟨"a.ts", ""⟩ = .ok res ∧
      res.regions.reverse.Perm res.regions ∧
      Text.bytes (substitute siblingText res.regions.reverse) =
        Text.select (Region.keepsByte res.regions.reverse) siblingText ∧
      Text.bytes (substitute siblingText res.regions.reverse) = Text.bytes "é\nü\n".toList := by
  have hpairs : pairings [] (ofText [.line] siblingText) = .ok siblingPairings := by decide +kernel
  have hok : resolve .line (locate .line siblingText) siblingDefs ⟨"a.ts", ""⟩ = .ok _ :=
    resolve_locate_eq_ok_iff.mpr ⟨siblingPairings, hpairs, rfl⟩
  have hperm := List.reverse_perm ((Pairing.sort siblingPairings).map
    (Pairing.toRegion siblingDefs))
  have hbytes := (bytes_substitute .line siblingText siblingDefs _ _ hok _ hperm).1
  refine ⟨_, hok, hperm, hbytes, hbytes.trans ?_⟩
  have hkeeps := Region.keepsByte_perm
    (hperm.trans ((Pairing.sort_perm siblingPairings).map (Pairing.toRegion siblingDefs)))
  rw [funext hkeeps]
  decide +kernel

end CondRegions
