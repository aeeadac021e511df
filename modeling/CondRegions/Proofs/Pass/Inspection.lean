import CondRegions.Proofs.Pass.Order

/-!
# Inspection and transformation

Inspecting a source and transforming it are two walks over the same passes. One report of an
inspection is one pass: its regions, substituted, give the text that the pass leaves, and its
diagnostics are those of the pass (`FamilyReport.Describes`). A text without markers makes no
difference, though a pass returns it without resolving anything, and neither does one whose markers
do not pair up.

So the walks stay together. The report with number `i` is on the text that the first `i` passes
leave (`getElem?_inspectFamilies`), and the diagnostics of the passes are those of the reports, in
order (`diagnostics_inspectFamilies`). `inspect_simulates` says it of a whole source.
-/

namespace CondRegions

variable {family : Family} {families : List Family} {text : List Char} {defs : Definitions}
  {path : String}

/-! ### One pass -/

@[simp] theorem family_reportFamily : (reportFamily family text defs path).family = family := by
  unfold reportFamily
  split <;> rfl

@[simp] theorem text_reportFamily : (reportFamily family text defs path).text = text := by
  unfold reportFamily
  split <;> rfl

/-- **A pass and its report.** Run on the text of the report, the pass of its style leaves the text
`next` and gives the diagnostics of the report. The regions of the report, substituted in its text,
give `next` too. -/
structure FamilyReport.Describes (report : FamilyReport) (defs : Definitions) (path : String)
    (next : List Char) : Prop where
  pass : applyFamily report.family report.text defs path = ⟨next, report.diagnostics⟩
  substituted : substitute report.text report.regions = next

/-- The report of a pass describes it. -/
theorem describes_reportFamily (family : Family) (text : List Char) (defs : Definitions)
    (path : String) :
    (reportFamily family text defs path).Describes defs path
      (applyFamily family text defs path).text := by
  have hpass : applyFamily family text defs path =
      ⟨substitute text (reportFamily family text defs path).regions,
        (reportFamily family text defs path).diagnostics⟩ := by
    rw [applyFamily_eq, reportFamily]
    -- the pass and the report branch on the same resolution
    cases resolve family (locate family text) defs ⟨path, String.ofList text⟩ with
    | ok res => rfl
    | error e =>
      -- a report without regions is one of a text that stays
      dsimp only
      rw [substitute_nil]
  refine ⟨?_, ?_⟩
  · rw [family_reportFamily, text_reportFamily, hpass]
  · rw [text_reportFamily, hpass]

/-! ### Passes one after the other -/

theorem inspectFamilies_cons (family : Family) (families : List Family) (text : List Char)
    (defs : Definitions) (path : String) :
    inspectFamilies text defs path (family :: families) =
      reportFamily family text defs path ::
        inspectFamilies (applyFamily family text defs path).text defs path families := by
  rw [inspectFamilies, ← (describes_reportFamily family text defs path).substituted,
    text_reportFamily]

theorem map_family_inspectFamilies :
    (inspectFamilies text defs path families).map (·.family) = families := by
  -- one report for each pass, in order
  induction families generalizing text with
  | nil => rfl
  | cons family families ih => rw [inspectFamilies_cons, List.map_cons, ih, family_reportFamily]

/-- **The texts of the reports.** Each report is on the text that the passes before it leave. -/
theorem getElem?_inspectFamilies (i : Nat) :
    (inspectFamilies text defs path families)[i]? = families[i]?.map fun family =>
      reportFamily family (applyFamilies (families.take i) text defs path).text defs path := by
  -- on the styles, for every place in the list
  induction families generalizing text i with
  | nil => rfl
  | cons family families ih =>
    rw [inspectFamilies_cons]
    cases i with
    | zero => rfl
    | succ i =>
      -- the first pass is one of those before, whichever later report is asked for
      rw [List.getElem?_cons_succ, List.getElem?_cons_succ, ih, List.take_succ_cons,
        applyFamilies_cons]

/-- **The diagnostics of the reports** are those of the passes. -/
theorem diagnostics_inspectFamilies (families : List Family) (text : List Char) (defs : Definitions)
    (path : String) :
    (inspectFamilies text defs path families).flatMap (·.diagnostics) =
      (applyFamilies families text defs path).diagnostics := by
  -- the report of each pass has the diagnostics of the pass
  induction families generalizing text with
  | nil => rfl
  | cons family families ih =>
    have hreport := (describes_reportFamily family text defs path).pass
    rw [family_reportFamily, text_reportFamily] at hreport
    rw [inspectFamilies_cons, List.flatMap_cons, ih, applyFamilies_cons]
    exact congrArg (· ++ _) (congrArg PassOutput.diagnostics hreport).symm

/-! ### A whole source -/

/-- **Inspection simulates transformation.** There is one report for each pass, in pass order. The
first report is on the source. Each describes its pass, and the text that the pass leaves is that of
the next report, or the transformed code behind the last one. The diagnostics of the reports, put
together, are those of the transformation. Each report is on the very text that its pass is run on
when the source is transformed, which is what the passes before it leave. -/
theorem inspect_simulates (source path : String) (defs : Definitions) :
    ∃ html line block : FamilyReport,
      inspect source path defs = [html, line, block] ∧
      [html, line, block].map (·.family) = Family.passOrder ∧
      html.text = source.toList ∧
      html.Describes defs path line.text ∧
      line.Describes defs path block.text ∧
      block.Describes defs path (transform source path defs).code.toList ∧
      html.diagnostics ++ line.diagnostics ++ block.diagnostics =
        (transform source path defs).diagnostics ∧
      ∀ i report, [html, line, block][i]? = some report →
        report.text = (applyFamilies (Family.passOrder.take i) source.toList defs path).text := by
  -- the texts that the first two passes leave
  let second := (applyFamily .html source.toList defs path).text
  let third := (applyFamily .line second defs path).text
  have hreports : inspect source path defs = [reportFamily .html source.toList defs path,
      reportFamily .line second defs path, reportFamily .block third defs path] := by
    unfold inspect Family.passOrder
    rw [inspectFamilies_cons, inspectFamilies_cons, inspectFamilies_cons]
    rfl
  refine ⟨_, _, _, hreports, ?_, text_reportFamily, ?_, ?_, ?_, ?_, ?_⟩
  · rw [← hreports]
    exact map_family_inspectFamilies
  · rw [text_reportFamily]
    exact describes_reportFamily ..
  · rw [text_reportFamily]
    exact describes_reportFamily ..
  · rw [toList_code_transform]
    exact describes_reportFamily ..
  · show _ = (applyFamilies Family.passOrder source.toList defs path).diagnostics
    rw [← diagnostics_inspectFamilies]
    show _ = (inspect source path defs).flatMap (·.diagnostics)
    rw [hreports]
    simp only [List.flatMap_cons, List.flatMap_nil, List.append_nil, List.append_assoc]
  · -- the report at a place is that of the style at the place, on what the earlier passes leave
    intro i report hreport
    rw [← hreports] at hreport
    unfold inspect at hreport
    rw [getElem?_inspectFamilies] at hreport
    obtain ⟨family, -, rfl⟩ := Option.map_eq_some_iff.mp hreport
    exact text_reportFamily

end CondRegions
