import CondRegions.Proofs.Pass.Apply

/-!
# Eliminating one region

A part of a text is *closed* for a style if the scan of its lines ends with nothing open. To what
stands before and behind it, a closed part is the text that its scan lets through, and nothing else:
replacing it by another closed part does not change whether a pass succeeds
(`hasMarkerError_replace`), and does not change the result if the scans of both let through the same
text (`text_replace`). This holds also where regions of the text before are still open.

A balanced text between a start marker and an end marker is closed (`run?_region`). If the condition
holds, its scan lets through what that of the balanced text lets through, and otherwise nothing. So
one region can be eliminated (`applyFamily_eliminate`).
-/

namespace CondRegions

open MarkerLine Word

namespace Scan

variable {families : List Family} {defs : Definitions} {z : List Char}

/-- **Closed parts.** A closed part is scanned on its own, whatever is open around it. -/
theorem run?_around {part : List (List Char)} (h : run? families defs [] part = some ⟨[], z⟩)
    (first second : List (List Char)) {x : List Char} :
    run? families defs [] (first ++ part ++ second) = some ⟨[], x⟩ ↔
      ∃ s y, run? families defs [] first = some s ∧
        run? families defs s.opened second = some ⟨[], y⟩ ∧
        x = s.output ++ emit s.opened z ++ y := by
  rw [run?_append, run?_append]
  -- if the first part cannot be scanned, neither side holds
  cases hs : run? families defs [] first with
  | none => simp
  | some s =>
    -- what is open behind the first part is a frame for the closed part
    have hpart : run? families defs s.opened part = some ⟨s.opened, emit s.opened z⟩ :=
      run?_frame h s.opened
    rw [Option.bind_some, hpart, Option.map_some, Option.bind_some]
    constructor
    · intro hx
      obtain ⟨t, ht, heq⟩ := Option.map_eq_some_iff.mp hx
      obtain ⟨hopened, hout⟩ := Scan.mk.inj heq
      exact ⟨s, t.output, rfl, by rw [ht, ← hopened], hout.symm⟩
    · rintro ⟨s', y, hs', hy, rfl⟩
      obtain rfl := Option.some.inj hs'
      rw [hy, Option.map_some]

/-- **One region.** The lines of a region are a closed part, if those between its markers are. -/
theorem run?_region {opening closing : List Char} {body : List (List Char)} {f : Family}
    {m e : Marker} (hm : bracket? families opening = some (.opening f m))
    (hmstop : m.span.stop = Text.byteLength opening)
    (he : bracket? families closing = some (.closing f e))
    (hestop : e.span.stop = Text.byteLength closing)
    (hbody : run? families defs [] body = some ⟨[], z⟩) :
    run? families defs [] (opening :: (body ++ [closing])) =
      some ⟨[], emit [⟨f, m.keeps defs⟩] z⟩ := by
  have hdrop : ∀ cs : List Char, Text.dropBytes (Text.byteLength cs) cs = [] := fun cs => by
    simpa using Text.dropBytes_byteLength_append cs []
  -- the two markers take up their lines, so they let nothing through
  have hopen : step? families defs [] opening = some ⟨[⟨f, m.keeps defs⟩], []⟩ := by
    rw [step?_bracket hm, turn?, Option.map_some, Bracket.span_opening, hmstop, hdrop, emit_empty]
  have hclose : step? families defs [⟨f, m.keeps defs⟩] closing = some ⟨[], []⟩ := by
    rw [step?_bracket he, turn?_closing_eq_some.mpr ⟨_, rfl⟩, Option.map_some, Bracket.span_closing,
      hestop, hdrop, emit_empty]
  -- the region is a frame for its body
  have hframe := run?_frame hbody [⟨f, m.keeps defs⟩]
  rw [List.nil_append] at hframe
  refine run?_cons_eq_some.mpr ⟨_, ⟨[], emit [⟨f, m.keeps defs⟩] z⟩, hopen, ?_, rfl⟩
  rw [run?_append, hframe, Option.bind_some, run?_singleton, hclose, Option.map_some,
    List.append_nil]

end Scan

/-! ### Replacing closed parts of a text -/

open Scan

variable {family : Family} {defs : Definitions} {before part part' : List Char} {z z' : List Char}

theorem hasMarkerError_iff {text : List Char} {path : String} :
    (applyFamily family text defs path).HasMarkerError ↔
      ∀ x, run? [family] defs [] (Text.lines text) ≠ some ⟨[], x⟩ := by
  constructor
  · intro herror x hx
    exact (applyFamily_of_run? hx path).2 herror
  · exact fun h => (applyFamily_of_not_run? h path).2

theorem lines_around (hbefore : Text.EndsLine before) (hpart : Text.EndsLine part)
    (after : List Char) :
    Text.lines (before ++ part ++ after) =
      Text.lines before ++ Text.lines part ++ Text.lines after := by
  rw [Text.lines_append (hbefore.append hpart), Text.lines_append hbefore]

/-- Which closed part stands at a place does not matter to the success of a pass. -/
theorem hasMarkerError_replace (hbefore : Text.EndsLine before) (hpart : Text.EndsLine part)
    (hpart' : Text.EndsLine part') (h : run? [family] defs [] (Text.lines part) = some ⟨[], z⟩)
    (h' : run? [family] defs [] (Text.lines part') = some ⟨[], z'⟩) (after : List Char)
    (path : String) :
    (applyFamily family (before ++ part ++ after) defs path).HasMarkerError ↔
      (applyFamily family (before ++ part' ++ after) defs path).HasMarkerError := by
  simp only [hasMarkerError_iff, lines_around hbefore hpart, lines_around hbefore hpart', ne_eq,
    run?_around h, run?_around h']
  -- the texts that are let through differ, but a scan of the one gives a scan of the other
  constructor
  · rintro hnone x ⟨s, y, hs, hy, -⟩
    exact hnone _ ⟨s, y, hs, hy, rfl⟩
  · rintro hnone x ⟨s, y, hs, hy, -⟩
    exact hnone _ ⟨s, y, hs, hy, rfl⟩

/-- Closed parts whose scans let through the same text are interchangeable in a pass that
succeeds. -/
theorem text_replace (hbefore : Text.EndsLine before) (hpart : Text.EndsLine part)
    (hpart' : Text.EndsLine part') (h : run? [family] defs [] (Text.lines part) = some ⟨[], z⟩)
    (h' : run? [family] defs [] (Text.lines part') = some ⟨[], z⟩) {after : List Char}
    {path : String}
    (hok : ¬ (applyFamily family (before ++ part ++ after) defs path).HasMarkerError) :
    (applyFamily family (before ++ part ++ after) defs path).text =
      (applyFamily family (before ++ part' ++ after) defs path).text := by
  rw [hasMarkerError_iff] at hok
  simp only [ne_eq, not_forall, not_not] at hok
  obtain ⟨x, hx⟩ := hok
  -- around both parts the scan is the same, and both let through the same text
  have hx' : run? [family] defs [] (Text.lines (before ++ part' ++ after)) = some ⟨[], x⟩ := by
    rw [lines_around hbefore hpart, run?_around h] at hx
    rw [lines_around hbefore hpart', run?_around h']
    exact hx
  rw [(applyFamily_of_run? hx path).1, (applyFamily_of_run? hx' path).1]

/-! ### One region -/

/-- A text that is nothing but a start marker is one line, which opens a region. -/
theorem bracket?_of_start {opening : List Char} {m : Marker}
    (hm : (locate family opening).starts = [m]) (hspan : m.span = ⟨0, Text.byteLength opening⟩) :
    Text.lines opening = [opening] ∧ bracket? [family] opening = some (.opening family m) := by
  have hmem : m ∈ (locate family opening).starts := by
    rw [hm]
    exact List.mem_singleton_self m
  -- the marker takes up the whole text, so there is no second line
  exact lines_of_whole (mem_starts_locate.mp hmem) hspan

/-- A text that is nothing but an end marker is one line, which closes a region. -/
theorem bracket?_of_end {closing : List Char} {e : Marker}
    (he : (locate family closing).ends = [e]) (hspan : e.span = ⟨0, Text.byteLength closing⟩) :
    Text.lines closing = [closing] ∧ bracket? [family] closing = some (.closing family e) := by
  have hmem : e ∈ (locate family closing).ends := by
    rw [he]
    exact List.mem_singleton_self e
  exact lines_of_whole (mem_ends_locate.mp hmem) hspan

/-- A text whose markers can be resolved is closed. -/
theorem exists_run?_of_resolve {defs₀ : Definitions} {source : Source} {res : Resolution}
    {body : List Char} (h : resolve family (locate family body) defs₀ source = .ok res)
    (defs : Definitions) : ∃ z, run? [family] defs [] (Text.lines body) = some ⟨[], z⟩ := by
  -- markers that resolve have pairings, and these do not depend on the definitions
  obtain ⟨ps, hps, -⟩ := resolve_locate_eq_ok_iff.mp h
  obtain ⟨z, hz, -⟩ := exists_run?_of_pairings defs hps
  exact ⟨z, hz⟩

namespace Marker

variable {m : Marker} {c : Spanned String}

theorem keeps_of_holds (hc : m.condition = some c) {result : Bool}
    (h : Condition.holds m.kind c.value defs = .ok result) : m.keeps defs = result := by
  rw [keeps, hc]
  simp only [h]

theorem keeps_of_malformed (hc : m.condition = some c) {err : SyntaxError}
    (h : Condition.parse c.value = .error err) : m.keeps defs = false := by
  have hholds : Condition.holds m.kind c.value defs = .error err := by
    rw [Condition.holds, Condition.value, h]
    rfl
  rw [keeps, hc]
  simp only [hholds]

end Marker

/-- **The text of one region.** It is a closed part if the text between its markers is one. -/
theorem run?_lines_region {opening body closing : List Char} {m e : Marker}
    (hopening : opening.getLast? = some '\n') (hbody : Text.EndsLine body)
    (hm : (locate family opening).starts = [m]) (hmspan : m.span = ⟨0, Text.byteLength opening⟩)
    (he : (locate family closing).ends = [e]) (hespan : e.span = ⟨0, Text.byteLength closing⟩)
    (h : run? [family] defs [] (Text.lines body) = some ⟨[], z⟩) :
    run? [family] defs [] (Text.lines (opening ++ body ++ closing)) =
      some ⟨[], emit [⟨family, m.keeps defs⟩] z⟩ := by
  -- the two markers are lines of their own
  obtain ⟨hlines, hbracket⟩ := bracket?_of_start hm hmspan
  obtain ⟨hlines', hbracket'⟩ := bracket?_of_end he hespan
  rw [lines_around (.inr hopening) hbody, hlines, hlines', List.append_assoc, List.singleton_append]
  exact run?_region hbracket (congrArg Span.stop hmspan) hbracket' (congrArg Span.stop hespan) h

/-- A start marker has a condition. -/
theorem exists_condition {opening : List Char} {m : Marker}
    (hm : (locate family opening).starts = [m])
    (hspan : m.span = ⟨0, Text.byteLength opening⟩) : ∃ c, m.condition = some c := by
  have hbracket := (bracket?_of_start hm hspan).2
  have hstart := (bracketOf?_eq_opening_iff.mp (bracket?_eq_some_iff.mp hbracket).2).2
  obtain ⟨-, -, -, -, -, -, hcondition, -⟩ := startOnLine?_eq_some hstart
  exact Option.isSome_iff_exists.mp hcondition

/-- **Eliminating one region.** Let a balanced text stand between a start marker and an end marker,
each with its line break. Whether the pass of their style reports a structural error does not depend
on the two markers, nor on what stands between them. If there is no such error, and the condition
holds, the result is that of the text without the two markers; if the condition fails or is
malformed, it is that of the text without the region, so that it is the same whatever balanced text
the region holds. Regions of the text before may be open at the start marker. -/
theorem applyFamily_eliminate (family : Family) (defs defs₀ : Definitions) (path : String)
    (source : Source) (before opening body closing after : List Char) (m e : Marker)
    (res : Resolution) (hbefore : Text.EndsLine before) (hbody : Text.EndsLine body)
    (hopening : opening.getLast? = some '\n') (hclosing : closing.getLast? = some '\n')
    (hm : (locate family opening).starts = [m]) (hmspan : m.span = ⟨0, Text.byteLength opening⟩)
    (he : (locate family closing).ends = [e]) (hespan : e.span = ⟨0, Text.byteLength closing⟩)
    (hres : resolve family (locate family body) defs₀ source = .ok res) :
    let whole := applyFamily family (before ++ opening ++ body ++ closing ++ after) defs path
    let unmarked := applyFamily family (before ++ body ++ after) defs path
    let removed := applyFamily family (before ++ after) defs path
    (whole.HasMarkerError ↔ unmarked.HasMarkerError) ∧
    (unmarked.HasMarkerError ↔ removed.HasMarkerError) ∧
    ∃ c, m.condition = some c ∧ (¬ whole.HasMarkerError →
      (Condition.holds m.kind c.value defs = .ok true → whole.text = unmarked.text) ∧
      (Condition.holds m.kind c.value defs = .ok false ∨
          (∃ err, Condition.parse c.value = .error err) →
        whole.text = removed.text ∧
        ∀ other res', Text.EndsLine other →
          resolve family (locate family other) defs₀ source = .ok res' →
          (applyFamily family (before ++ opening ++ other ++ closing ++ after) defs path).text =
            whole.text)) := by
  intro whole unmarked removed
  -- the scans of the body and of the region as closed parts
  obtain ⟨z, hz⟩ := exists_run?_of_resolve hres defs
  obtain ⟨c, hc⟩ := exists_condition hm hmspan
  have hregion := run?_lines_region hopening hbody hm hmspan he hespan hz
  have hempty : run? [family] defs [] (Text.lines []) = some ⟨[], []⟩ := rfl
  have hends : ∀ text, Text.EndsLine (opening ++ text ++ closing) := fun text =>
    .inr (by rw [List.getLast?_append, hclosing]; rfl)
  have hassoc : ∀ text, before ++ opening ++ text ++ closing ++ after =
      before ++ (opening ++ text ++ closing) ++ after := fun text => by
    simp only [List.append_assoc]
  have hwhole : whole =
      applyFamily family (before ++ (opening ++ body ++ closing) ++ after) defs path := by
    rw [← hassoc]
  have hremoved : removed = applyFamily family (before ++ [] ++ after) defs path := by
    rw [List.append_nil]
  -- the region, the text between its markers and no text at all are three closed parts
  refine ⟨?_, ?_, c, hc, fun hok => ⟨fun hholds => ?_, fun hfails => ?_⟩⟩
  · rw [hwhole]
    exact hasMarkerError_replace hbefore (hends body) hbody hregion hz after path
  · rw [hremoved]
    exact hasMarkerError_replace hbefore hbody .nil hz hempty after path
  · -- the region lets through what its body lets through
    rw [Marker.keeps_of_holds hc hholds, emit_of_all rfl] at hregion
    rw [hwhole] at hok ⊢
    exact text_replace hbefore (hends body) hbody hregion hz hok
  · -- the region lets nothing through, as no text at all does
    have hkeeps : m.keeps defs = false := by
      rcases hfails with hfalse | ⟨err, hparse⟩
      · exact Marker.keeps_of_holds hc hfalse
      · exact Marker.keeps_of_malformed hc hparse
    rw [hkeeps, emit_of_not_all rfl] at hregion
    rw [hwhole] at hok ⊢
    refine ⟨?_, fun other res' hother hres' => ?_⟩
    · rw [hremoved]
      exact text_replace hbefore (hends body) .nil hregion hempty hok
    · -- the scan of a region that is excluded lets nothing through, whatever it holds
      obtain ⟨z', hz'⟩ := exists_run?_of_resolve hres' defs
      have hregion' := run?_lines_region hopening hother hm hmspan he hespan hz'
      rw [hkeeps, emit_of_not_all rfl] at hregion'
      rw [hassoc]
      exact (text_replace hbefore (hends body) (hends other) hregion hregion' hok).symm

/-! A text in five parts. The region of the first and the last part is open at the start marker of
the second, and the third part has a region of its own. -/

def outerBefore : List Char := "é\n//#ifdef A\na\n".toList

def innerOpening : List Char := "//#ifndef A\n".toList

def innerBody : List Char := "b\n//#ifdef A\nc\n//#endif\n".toList

def innerClosing : List Char := "//#endif\n".toList

def outerAfter : List Char := "d\n//#endif\ne".toList

/-- The theorem at a region that stands inside another one and is excluded. -/
theorem applyFamily_eliminate_inner :
    Text.EndsLine outerBefore ∧ Text.EndsLine innerBody ∧
    (∃ res, resolve .line (locate .line innerBody) siblingDefs ⟨"a.ts", ""⟩ = .ok res) ∧
    ¬ (applyFamily .line (outerBefore ++ innerOpening ++ innerBody ++ innerClosing ++ outerAfter)
      siblingDefs "a.ts").HasMarkerError ∧
    (applyFamily .line (outerBefore ++ innerOpening ++ innerBody ++ innerClosing ++ outerAfter)
      siblingDefs "a.ts").text =
        (applyFamily .line (outerBefore ++ outerAfter) siblingDefs "a.ts").text := by
  have hbefore : Text.EndsLine outerBefore := .inr (by decide)
  have hbody : Text.EndsLine innerBody := .inr (by decide)
  have hpairs : pairings [] (ofText [.line] innerBody) =
      .ok [⟨⟨.ifdef, ⟨2, 13⟩, some ⟨"A", ⟨11, 12⟩⟩⟩, ⟨.endif, ⟨15, 24⟩, none⟩, 0⟩] := by
    decide +kernel
  have hres : resolve .line (locate .line innerBody) siblingDefs ⟨"a.ts", ""⟩ = .ok _ :=
    resolve_locate_eq_ok_iff.mpr ⟨_, hpairs, rfl⟩
  have hscan : run? [.line] siblingDefs []
      (Text.lines (outerBefore ++ innerOpening ++ innerBody ++ innerClosing ++ outerAfter)) =
        some ⟨[], "é\na\nd\ne".toList⟩ := by decide +kernel
  have hok := (applyFamily_of_run? hscan "a.ts").2
  obtain ⟨-, -, c, hc, h⟩ := applyFamily_eliminate .line siblingDefs siblingDefs "a.ts" ⟨"a.ts", ""⟩
    outerBefore innerOpening innerBody innerClosing outerAfter
    ⟨.ifndef, ⟨0, 12⟩, some ⟨"A", ⟨10, 11⟩⟩⟩ ⟨.endif, ⟨0, 9⟩, none⟩ _ hbefore hbody
    (by decide) (by decide) (by decide) (by decide) (by decide) (by decide) hres
  obtain rfl := Option.some.inj hc
  exact ⟨hbefore, hbody, ⟨_, hres⟩, hok, ((h hok).2 (.inl (by decide +kernel))).1⟩

end CondRegions
