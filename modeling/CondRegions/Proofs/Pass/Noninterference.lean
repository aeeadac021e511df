import CondRegions.Proofs.Condition.Grammar
import CondRegions.Proofs.Pass.Inspection

/-!
# What a transformation reads

The definitions are read in one place only, where the condition of a start marker is evaluated. So
two maps of definitions give the same transformation if they agree on the names in these conditions.
It is enough to look at the regions that an inspection under the first map lists: a condition under
which nothing is paired decides nothing, and neither does one that does not parse.

The first map says which regions there are to look at, since the regions that a pass leaves out are
gone for the later ones. As long as the maps agree so far, the later passes see the same text under
both (`reportFamily_congr`, `inspectFamilies_congr`), so looking at one of them suffices.
`transform_noninterference` is the statement for a whole source.
-/

namespace CondRegions

variable {d₁ d₂ : Definitions}

/-! ### Conditions -/

/-- Definitions that agree on the names of an expression give it the same value. -/
theorem Expr.eval_congr {α : Type} {e : Expr α}
    (h : ∀ name ∈ e.names, d₁.lookup name = d₂.lookup name) : e.eval d₁ = e.eval d₂ := by
  -- only an identifier asks for a definition, and its name is one of those of `h`
  induction e with
  | literal note v => rfl
  | identifier note name => exact h name (List.mem_singleton_self name)
  | not note operand ih =>
    rw [Expr.eval, Expr.eval, ih h]
  | binary note op l r ihl ihr =>
    obtain ⟨hl, hr⟩ := List.forall_mem_append.mp h
    unfold Expr.eval
    rw [ihl hl, ihr hr]

/-- The names that a condition reads; none if it does not parse. -/
def Condition.names (text : String) : List String :=
  match Condition.parse text with
  | .ok e => e.names
  | .error _ => []

theorem Condition.holds_congr {text : String}
    (h : ∀ name ∈ Condition.names text, d₁.lookup name = d₂.lookup name) (kind : Kind) :
    Condition.holds kind text d₁ = Condition.holds kind text d₂ := by
  unfold Condition.names at h
  unfold Condition.holds Condition.value
  -- whether the condition parses does not depend on definitions
  cases hparse : Condition.parse text with
  | error e => rfl
  | ok e =>
    rw [hparse] at h
    simp only [Except.map, Expr.eval_congr h]

/-! ### Regions -/

theorem Pairing.toRegion_condition (p : Pairing) (defs : Definitions) :
    (p.toRegion defs).condition = (p.opening.condition.map (·.value)).getD "" := rfl

theorem Marker.keeps_congr {m : Marker}
    (h : ∀ name ∈ Condition.names ((m.condition.map (·.value)).getD ""),
      d₁.lookup name = d₂.lookup name) : m.keeps d₁ = m.keeps d₂ := by
  unfold Marker.keeps
  -- a marker without a condition reads nothing
  cases hc : m.condition with
  | none => rfl
  | some c =>
    rw [hc, Option.map_some, Option.getD_some] at h
    dsimp only
    rw [Condition.holds_congr h]

/-- The region of a pairing is the same under definitions that agree on its condition. -/
theorem Pairing.toRegion_congr {p : Pairing}
    (h : ∀ name ∈ Condition.names (p.toRegion d₁).condition, d₁.lookup name = d₂.lookup name) :
    p.toRegion d₁ = p.toRegion d₂ := by
  rw [Pairing.toRegion_condition] at h
  unfold Pairing.toRegion
  rw [Marker.keeps_congr h]

/-- **Resolving.** Whether markers pair up does not depend on definitions, and the regions are the
same under definitions that agree on their conditions. -/
theorem resolve_congr {family : Family} {ms : Markers} {source : Source}
    (h : ∀ res, resolve family ms d₁ source = .ok res →
      ∀ r ∈ res.regions, ∀ name ∈ Condition.names r.condition, d₁.lookup name = d₂.lookup name) :
    resolve family ms d₁ source = resolve family ms d₂ source := by
  unfold resolve at h ⊢
  -- numbers and pairs of markers are compared without definitions
  by_cases hlen : ms.starts.length ≠ ms.ends.length
  · rw [if_pos hlen, if_pos hlen]
  · rw [if_neg hlen] at h ⊢
    rw [if_neg hlen]
    cases hpair : Pairing.pair [] ms.starts ms.ends with
    | error e => rfl
    | ok pairings =>
      rw [hpair] at h
      -- so only the results of the regions could differ, and each of them is listed
      have hregions : pairings.map (Pairing.toRegion d₁) = pairings.map (Pairing.toRegion d₂) := by
        refine List.map_congr_left fun p hp => Pairing.toRegion_congr (h _ rfl _ ?_)
        exact List.mem_mergeSort.mpr (List.mem_map_of_mem hp)
      simp only [hregions]

/-! ### Passes -/

/-- The names that the conditions of the regions of a report read. -/
def FamilyReport.names (report : FamilyReport) : List String :=
  report.regions.flatMap fun r => Condition.names r.condition

theorem reportFamily_congr {family : Family} {text : List Char} {path : String}
    (h : ∀ name ∈ (reportFamily family text d₁ path).names, d₁.lookup name = d₂.lookup name) :
    reportFamily family text d₁ path = reportFamily family text d₂ path := by
  have hres : resolve family (locate family text) d₁ ⟨path, String.ofList text⟩ =
      resolve family (locate family text) d₂ ⟨path, String.ofList text⟩ := by
    -- the regions of the report are those of the resolution
    refine resolve_congr fun res hres r hr name hname => h name ?_
    unfold reportFamily FamilyReport.names
    rw [hres]
    exact List.mem_flatMap.mpr ⟨r, hr, hname⟩
  unfold reportFamily
  rw [hres]

/-- The reports of all passes. The text that a pass leaves is told by its report, so definitions
that agree on the report of the first pass hand the same text to the others. -/
theorem inspectFamilies_congr {families : List Family} {text : List Char} {path : String}
    (h : ∀ name ∈ (inspectFamilies text d₁ path families).flatMap (·.names),
      d₁.lookup name = d₂.lookup name) :
    inspectFamilies text d₁ path families = inspectFamilies text d₂ path families := by
  -- the first reports agree, so the later passes get the same text
  induction families generalizing text with
  | nil => rfl
  | cons family families ih =>
    rw [inspectFamilies, List.flatMap_cons, List.forall_mem_append] at h
    obtain ⟨hfirst, hrest⟩ := h
    rw [inspectFamilies, inspectFamilies, ← reportFamily_congr hfirst, ih hrest]

theorem applyFamily_congr {family : Family} {text : List Char} {path : String}
    (h : reportFamily family text d₁ path = reportFamily family text d₂ path) :
    applyFamily family text d₁ path = applyFamily family text d₂ path := by
  have h₁ := describes_reportFamily family text d₁ path
  have h₂ := describes_reportFamily family text d₂ path
  -- a pass is told by its report: the text that it leaves, and its diagnostics
  have hpass₁ := h₁.pass
  have hpass₂ := h₂.pass
  rw [family_reportFamily, text_reportFamily, ← h₁.substituted] at hpass₁
  rw [family_reportFamily, text_reportFamily, ← h₂.substituted, ← h] at hpass₂
  rw [hpass₁, hpass₂]

/-- Passes with the same reports leave the same text and give the same diagnostics. -/
theorem applyFamilies_congr {families : List Family} {text : List Char} {path : String}
    (h : inspectFamilies text d₁ path families = inspectFamilies text d₂ path families) :
    applyFamilies families text d₁ path = applyFamilies families text d₂ path := by
  -- passes with the same reports hand on the same text
  induction families generalizing text with
  | nil => rfl
  | cons family families ih =>
    rw [inspectFamilies_cons, inspectFamilies_cons, List.cons.injEq] at h
    obtain ⟨hfirst, hrest⟩ := h
    have hpass := applyFamily_congr hfirst
    rw [← hpass] at hrest
    rw [applyFamilies_cons, applyFamilies_cons, ← hpass, ih hrest]

/-! ### A whole source -/

theorem transform_congr {source path : String}
    (h : ∀ name ∈ (inspect source path d₁).flatMap (·.names), d₁.lookup name = d₂.lookup name) :
    transform source path d₁ = transform source path d₂ := by
  unfold transform
  rw [applyFamilies_congr (inspectFamilies_congr h)]

/-- A name is looked up among the keys that conditions can read. -/
theorem Definitions.lookup_congr {name : String}
    (h : Definitions.eligible name = true → d₁.get? name = d₂.get? name) :
    d₁.lookup name = d₂.lookup name := by
  unfold Definitions.lookup
  split
  · next heligible => rw [h heligible]
  · rfl

/-- **Noninterference.** Two maps of definitions give the same code, the same change flag and the
same diagnostics if the names in the conditions of the regions that are listed under the first have
the same values in both. So the values of keys that conditions cannot read, and of keys that are not
named in these conditions, make no difference. -/
theorem transform_noninterference (source path : String) (d₁ d₂ : Definitions) :
    let read := (inspect source path d₁).flatMap (·.names)
    ((∀ name ∈ read, d₁.lookup name = d₂.lookup name) →
      transform source path d₁ = transform source path d₂) ∧
    ((∀ key, Definitions.eligible key = true → key ∈ read → d₁.get? key = d₂.get? key) →
      transform source path d₁ = transform source path d₂) := by
  intro read
  refine ⟨transform_congr, fun h => transform_congr fun name hname => ?_⟩
  exact Definitions.lookup_congr fun heligible => h name heligible hname

/-- A source in which the region that names `C` is left out before its own pass, and the one that
names `D` does not close. -/
def readingText : String :=
  "<!--#ifdef A&&$B-->\n//#ifdef C\n//#endif\n<!--#endif-->\n" ++
    "//#ifndef A||E\n//#endif\n/*#ifdef D*/\n"

/-- Definitions that agree on `A` and `E` only. -/
def readingDefs : Definitions × Definitions :=
  (FinMap.ofList [("A", .bool true), ("C", .bool true), ("$B", .bool false)],
    FinMap.ofList [("D", .string "d"), ("A", .bool true)])

/-- The theorem at a source with names that are not read. -/
theorem transform_noninterference_unread :
    (inspect readingText "a.ts" readingDefs.1).flatMap (·.names) = ["A", "$B", "A", "E"] ∧
    transform readingText "a.ts" readingDefs.1 = transform readingText "a.ts" readingDefs.2 ∧
    (transform readingText "a.ts" readingDefs.2).code = "/*#ifdef D*/\n" := by
  have hread : (inspect readingText "a.ts" readingDefs.1).flatMap (·.names) =
      ["A", "$B", "A", "E"] := by
    decide +kernel
  have hvalues : ∀ name ∈ ["A", "$B", "A", "E"],
      readingDefs.1.lookup name = readingDefs.2.lookup name := by
    decide +kernel
  refine ⟨hread, ?_, by decide +kernel⟩
  obtain ⟨hsame, -⟩ := transform_noninterference readingText "a.ts" readingDefs.1 readingDefs.2
  rw [hread] at hsame
  exact hsame hvalues

end CondRegions
