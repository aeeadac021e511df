import CondRegions.Proofs.Pass.Order
import CondRegions.Proofs.Pass.Report

/-!
# Transforming a concatenation

A text that ends a line can be put before another text, and the two are transformed as if they stood
alone, if neither has a structural error. One pass scans the lines of the first text and then those
of the second, with nothing open between them. What it leaves of the first text ends a line again,
since what is let through of a line is its end or nothing (`Scan.endsLine_of_run?`); so the next
pass finds the same situation. A pass reports on every line with a malformed condition, wherever the
line stands (`length_diagnostics`).

* `applyFamily_append` — one pass;
* `applyFamilies_append` — any passes, one after the other;
* `transform_append` — the transformation.
-/

namespace CondRegions

open MarkerLine Word Scan

variable {family : Family} {families : List Family} {defs : Definitions} {path : String}
  {first second : List Char}

/-! ### What is left of a text that ends a line -/

namespace Scan

theorem endsLine_emit {cs : List Char} (h : Text.EndsLine cs) (opened : List OpenRegion) :
    Text.EndsLine (emit opened cs) := by
  unfold emit
  split
  · exact h
  · exact .nil

/-- What is let through of a line is its end, or nothing. -/
theorem endsLine_of_step? {opened : List OpenRegion} {line : List Char} {s : Scan}
    (hline : Text.EndsLine line) (h : step? families defs opened line = some s) :
    Text.EndsLine s.output := by
  rcases step?_cases h with ⟨-, rfl⟩ | ⟨b, hb, -, hout⟩
  · exact endsLine_emit hline opened
  · -- behind the marker stands the end of the line
    obtain ⟨marker, after, rfl, -, hspan⟩ := heads_of_bracket? hb
    have hdrop : Text.dropBytes b.span.stop (marker ++ after) = after := by
      rw [show b.span.stop = Text.byteLength marker from congrArg Span.stop hspan,
        Text.dropBytes_byteLength_append]
    rw [hout, hdrop]
    exact endsLine_emit hline.of_append s.opened

theorem endsLine_of_run? {opened : List OpenRegion} {lines : List (List Char)} {s : Scan}
    (hlines : ∀ line ∈ lines, Text.EndsLine line) (h : run? families defs opened lines = some s) :
    Text.EndsLine s.output := by
  -- line by line; what is let through is put together from ends of lines
  induction lines generalizing opened s with
  | nil =>
    obtain rfl := Option.some.inj h
    exact .nil
  | cons line lines ih =>
    obtain ⟨hline, hlines⟩ := List.forall_mem_cons.mp hlines
    obtain ⟨t, u, ht, hu, rfl⟩ := run?_cons_eq_some.mp h
    exact (endsLine_of_step? hline ht).append (ih hlines hu)

end Scan

/-! ### How much is reported -/

theorem exists_run?_of_not_hasMarkerError {text : List Char}
    (h : ¬ (applyFamily family text defs path).HasMarkerError) :
    ∃ x, run? [family] defs [] (Text.lines text) = some ⟨[], x⟩ := by
  by_contra hnone
  exact h (hasMarkerError_iff.mpr (not_exists.mp hnone))

/-- Where a marker stands does not matter to whether its condition parses. -/
@[simp] theorem Marker.isMalformed_shift (m : Marker) (offset : Nat) :
    (m.shift offset).isMalformed = m.isMalformed := by
  -- moving a marker moves its spans, and leaves the text of its condition
  obtain ⟨kind, span, _ | c⟩ := m <;> rfl

/-- Whether a line begins with a start marker whose condition does not parse. -/
def MarkerLine.isMalformed (family : Family) (line : List Char) : Bool :=
  (startOnLine? family line).any Marker.isMalformed

theorem countP_onLines (family : Family) (offset : Nat) (lines : List (List Char)) :
    (Markers.onLines (startOnLine? family) offset lines).countP Marker.isMalformed =
      lines.countP (MarkerLine.isMalformed family) := by
  -- the offset grows with each line, and does not matter
  induction lines generalizing offset with
  | nil => rfl
  | cons line lines ih =>
    rw [List.countP_cons, ← ih (offset + Text.byteLength line), Markers.onLines,
      MarkerLine.isMalformed]
    cases startOnLine? family line with
    | none => rfl
    | some m =>
      dsimp only
      rw [List.countP_cons, Marker.isMalformed_shift, Option.any_some]

/-- **How much is reported.** A pass without a structural error reports on each line with a
malformed condition. -/
theorem length_diagnostics {text : List Char}
    (h : ¬ (applyFamily family text defs path).HasMarkerError) :
    (applyFamily family text defs path).diagnostics.length =
      (Text.lines text).countP (MarkerLine.isMalformed family) := by
  -- without a structural error the markers pair up, so every condition is looked at
  obtain ⟨x, hx⟩ := exists_run?_of_not_hasMarkerError h
  obtain ⟨ps, hps, -⟩ := run?_lines_eq_some_iff.mp hx
  obtain ⟨-, hout⟩ := applyFamily_of_pairings hps defs path
  rw [hout, ← countP_onLines family 0]
  -- the start markers are those of the lines
  show ((locate family text).starts.filterMap _).length = (locate family text).starts.countP _
  rw [List.length_filterMap_eq_countP]
  exact List.countP_congr fun m _ => by rw [isSome_conditionDiagnostic?]

/-! ### Passes -/

/-- **One pass over a concatenation** leaves what it leaves of the two texts, and reports as
much. -/
theorem applyFamily_append (hfirst : Text.EndsLine first)
    (h : ¬ (applyFamily family first defs path).HasMarkerError)
    (h' : ¬ (applyFamily family second defs path).HasMarkerError) :
    ¬ (applyFamily family (first ++ second) defs path).HasMarkerError ∧
    (applyFamily family (first ++ second) defs path).text =
      (applyFamily family first defs path).text ++ (applyFamily family second defs path).text ∧
    (applyFamily family (first ++ second) defs path).diagnostics.length =
      (applyFamily family first defs path).diagnostics.length +
        (applyFamily family second defs path).diagnostics.length ∧
    Text.EndsLine (applyFamily family first defs path).text := by
  obtain ⟨x, hx⟩ := exists_run?_of_not_hasMarkerError h
  obtain ⟨y, hy⟩ := exists_run?_of_not_hasMarkerError h'
  have hlines := Text.lines_append hfirst second
  -- nothing is open where the second text begins
  have hrun : run? [family] defs [] (Text.lines (first ++ second)) = some ⟨[], x ++ y⟩ := by
    rw [hlines, run?_append, hx, Option.bind_some, hy, Option.map_some]
  obtain ⟨htext, hok⟩ := applyFamily_of_run? hrun path
  refine ⟨hok, ?_, ?_, ?_⟩
  · rw [htext, (applyFamily_of_run? hx path).1, (applyFamily_of_run? hy path).1]
  · rw [length_diagnostics hok, length_diagnostics h, length_diagnostics h', hlines,
      List.countP_append]
  · rw [(applyFamily_of_run? hx path).1]
    exact endsLine_of_run? (fun line hline => Text.endsLine_of_mem_lines hfirst hline) hx

/-- The structural errors of passes one after the other. -/
theorem hasMarkerError_cons {text : List Char} :
    (applyFamilies (family :: families) text defs path).HasMarkerError ↔
      (applyFamily family text defs path).HasMarkerError ∨
        (applyFamilies families (applyFamily family text defs path).text defs
          path).HasMarkerError := by
  unfold PassOutput.HasMarkerError
  rw [applyFamilies_cons]
  simp only [List.mem_append, or_and_right, exists_or]

/-- **Passes over a concatenation.** -/
theorem applyFamilies_append (hfirst : Text.EndsLine first)
    (h : ¬ (applyFamilies families first defs path).HasMarkerError)
    (h' : ¬ (applyFamilies families second defs path).HasMarkerError) :
    ¬ (applyFamilies families (first ++ second) defs path).HasMarkerError ∧
    (applyFamilies families (first ++ second) defs path).text =
      (applyFamilies families first defs path).text ++
        (applyFamilies families second defs path).text ∧
    (applyFamilies families (first ++ second) defs path).diagnostics.length =
      (applyFamilies families first defs path).diagnostics.length +
        (applyFamilies families second defs path).diagnostics.length := by
  -- the first text still ends a line behind each pass, so the seam is never closed
  induction families generalizing first second with
  | nil => exact ⟨h, rfl, rfl⟩
  | cons family families ih =>
    rw [hasMarkerError_cons, not_or] at h h'
    obtain ⟨hok, htext, hlength, hends⟩ := applyFamily_append hfirst h.1 h'.1
    -- the further passes run on what this one leaves of the two texts
    obtain ⟨hok', htext', hlength'⟩ := ih hends h.2 h'.2
    rw [← htext] at hok' htext' hlength'
    refine ⟨?_, ?_, ?_⟩
    · rw [hasMarkerError_cons, not_or]
      exact ⟨hok, hok'⟩
    · rw [applyFamilies_cons, applyFamilies_cons, applyFamilies_cons]
      exact htext'
    · rw [applyFamilies_cons, applyFamilies_cons, applyFamilies_cons]
      simp only [List.length_append]
      omega

/-! ### The transformation -/

/-- **Transforming a concatenation.** Let the first of two sources be empty or end in a line feed,
and let neither have a structural error. Then the concatenation has none, its code is that of the
two, one behind the other, and as much is reported on it as on the two. -/
theorem transform_append (first second path : String) (defs : Definitions)
    (hfirst : Text.EndsLine first.toList)
    (h : ∀ d ∈ (transform first path defs).diagnostics, d.cause.category ≠ .marker)
    (h' : ∀ d ∈ (transform second path defs).diagnostics, d.cause.category ≠ .marker) :
    (∀ d ∈ (transform (first ++ second) path defs).diagnostics, d.cause.category ≠ .marker) ∧
    (transform (first ++ second) path defs).code =
      (transform first path defs).code ++ (transform second path defs).code ∧
    (transform (first ++ second) path defs).diagnostics.length =
      (transform first path defs).diagnostics.length +
        (transform second path defs).diagnostics.length := by
  unfold transform at h h' ⊢
  rw [String.toList_append]
  -- the diagnostics of the transformation are those of all passes
  obtain ⟨hok, htext, hlength⟩ := applyFamilies_append hfirst
    (fun ⟨d, hd, hcategory⟩ => h d hd hcategory) (fun ⟨d, hd, hcategory⟩ => h' d hd hcategory)
  refine ⟨fun d hd hcategory => hok ⟨d, hd, hcategory⟩, ?_, hlength⟩
  dsimp only
  rw [htext, String.ofList_append]

/-- A region of the html style whose markers do not take up their lines. -/
def seamFirst : String := "é\n<!-- #ifdef A --> a\n<!-- #endif --> b\n"

/-- A region whose condition is malformed. -/
def seamSecond : String := "//#ifdef A ==\nc\n//#endif\n"

/-- The theorem at two texts of different styles; the report comes from the second one. -/
theorem transform_append_seam :
    Text.EndsLine seamFirst.toList ∧
    (∀ d ∈ (transform seamFirst "a.ts" siblingDefs).diagnostics, d.cause.category ≠ .marker) ∧
    (∀ d ∈ (transform seamSecond "a.ts" siblingDefs).diagnostics, d.cause.category ≠ .marker) ∧
    (transform (seamFirst ++ seamSecond) "a.ts" siblingDefs).code = "é\n a\n b\n" ∧
    (transform (seamFirst ++ seamSecond) "a.ts" siblingDefs).diagnostics.length = 1 := by
  have hfirst : Text.EndsLine seamFirst.toList := .inr (by decide +kernel)
  have h : ∀ d ∈ (transform seamFirst "a.ts" siblingDefs).diagnostics,
      d.cause.category ≠ .marker := by
    decide +kernel
  have h' : ∀ d ∈ (transform seamSecond "a.ts" siblingDefs).diagnostics,
      d.cause.category ≠ .marker := by
    decide +kernel
  obtain ⟨-, hcode, hlength⟩ := transform_append seamFirst seamSecond "a.ts" siblingDefs hfirst h h'
  refine ⟨hfirst, h, h', ?_, ?_⟩
  · rw [hcode]
    decide +kernel
  · rw [hlength]
    decide +kernel

end CondRegions
