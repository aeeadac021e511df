import CondRegions.Proofs.Marker.LineBreak
import CondRegions.Proofs.Pass.Remainder
import CondRegions.Proofs.Pass.Report

/-!
# Line feeds and carriage returns

A text without carriage returns is transformed in the same way if every line feed is written as a
carriage return and a line feed (`Text.crlf`): the result has its line feeds written so too, and the
same is reported, except for places.

A line and the same line with the other line break begin with the same bracket, which leaves the
same text behind it, up to the line break (`Scan.step?_crlf`). So the scans of the two texts keep
step (`Scan.run?_crlf`). What is reported depends on what the markers say, wherever they stand
(`Marker.content`), and on their being balanced (`causes_congr`). Passes do not bring carriage
returns into a text, so the next pass finds the same situation.
-/

namespace CondRegions

/-! ### Line feeds written with carriage returns -/

namespace Text

/-- **Line feeds with carriage returns.** The text with every line feed written as a carriage return
and a line feed. -/
def crlf (text : List Char) : List Char :=
  text.flatMap fun c => if c = '\n' then ['\r', '\n'] else [c]

@[simp] theorem crlf_nil : crlf [] = [] := rfl

@[simp] theorem crlf_append (xs ys : List Char) : crlf (xs ++ ys) = crlf xs ++ crlf ys :=
  List.flatMap_append

theorem crlf_cons_newline (cs : List Char) : crlf ('\n' :: cs) = '\r' :: '\n' :: crlf cs := rfl

theorem crlf_cons {c : Char} (hc : c ≠ '\n') (cs : List Char) : crlf (c :: cs) = c :: crlf cs := by
  unfold crlf
  rw [List.flatMap_cons, if_neg hc]
  rfl

theorem crlf_of_not_mem {cs : List Char} (h : '\n' ∉ cs) : crlf cs = cs := by
  induction cs with
  | nil => rfl
  | cons c cs ih =>
    obtain ⟨hc, hcs⟩ := not_or.mp (List.mem_cons.not.mp h)
    rw [crlf_cons (Ne.symm hc), ih hcs]

/-- The lines stay, each with its line feed written in the other way. -/
theorem lines_crlf (text : List Char) : lines (crlf text) = (lines text).map crlf := by
  induction text with
  | nil => rfl
  | cons c cs ih =>
    -- a line feed ends its line in both ways of writing; any other character joins the first line
    by_cases hc : c = '\n'
    · subst hc
      rw [crlf_cons_newline, lines_cons_newline,
        lines_cons_of_cons (by decide) (lines_cons_newline (crlf cs)), ih]
      rfl
    · rw [crlf_cons hc]
      cases hl : lines cs with
      | nil =>
        rw [hl] at ih
        rw [lines_cons_of_nil hc ih, lines_cons_of_nil hc hl, List.map_singleton, crlf_cons hc,
          crlf_nil]
      | cons l ls =>
        rw [hl] at ih
        rw [lines_cons_of_cons hc ih, lines_cons_of_cons hc hl, List.map_cons, crlf_cons hc]

end Text

open MarkerLine Word Scan

variable {family : Family} {families : List Family} {defs : Definitions} {path : String}
  {text line : List Char}

/-! ### Lines -/

namespace MarkerLine

/-- What ends a line without carriage returns: a line feed, or nothing where the text ends. -/
def IsFeed (lineEnd : List Char) : Prop :=
  lineEnd = ['\n'] ∨ lineEnd = []

/-- **Feed lines.** Lines without carriage returns. -/
def IsFeedLine (line : List Char) : Prop :=
  ∃ body lineEnd, IsBody body ∧ IsFeed lineEnd ∧ line = body ++ lineEnd

variable {lineEnd : List Char}

theorem IsFeed.isLineEnd (h : IsFeed lineEnd) : IsLineEnd lineEnd := by
  rcases h with rfl | rfl
  · exact .inl rfl
  · exact .inr rfl

theorem IsFeed.isLineEnd_crlf (h : IsFeed lineEnd) : IsLineEnd (Text.crlf lineEnd) := by
  rcases h with rfl | rfl
  · exact .inl rfl
  · exact .inr rfl

theorem crlf_body_append {body : List Char} (h : IsBody body) (lineEnd : List Char) :
    Text.crlf (body ++ lineEnd) = body ++ Text.crlf lineEnd := by
  rw [Text.crlf_append, Text.crlf_of_not_mem h.2]

/-- The end of a line belongs to the marker in both ways of writing, or in neither. -/
theorem crlf_leftover {rest : List Char} (hrest : IsBody rest) (h : IsFeed lineEnd) :
    Text.crlf (leftover rest lineEnd) = leftover rest (Text.crlf lineEnd) := by
  have hbreak : isLineBreak (Text.crlf lineEnd) = isLineBreak lineEnd := by
    rcases h with rfl | rfl <;> rfl
  unfold leftover
  rw [hbreak]
  -- the marker takes the end of the line along, or it is left with the rest of the line
  split
  · rfl
  · exact crlf_body_append hrest lineEnd

end MarkerLine

theorem isFeedLine_of_mem_lines (htext : '\r' ∉ text) (hline : line ∈ Text.lines text) :
    IsFeedLine line := by
  have hreturn : '\r' ∉ line := by
    intro hmem
    refine htext ?_
    rw [← Text.flatten_lines text]
    exact List.mem_flatten_of_mem hline hmem
  have hfeed := not_mem_dropLineBreak ((Text.areLines_lines text).inner line hline)
  -- a line without carriage returns cannot end in a carriage return and a line feed
  obtain ⟨lineBreak, heq, hbreak⟩ := dropLineBreak_cases line
  rw [heq] at hreturn
  refine ⟨dropLineBreak line, lineBreak, ⟨fun hmem => ?_, hfeed⟩, ?_, heq⟩
  · exact hreturn (List.mem_append_left _ hmem)
  · rcases hbreak with hbreak | ⟨rfl, -⟩
    · rcases isLineBreak_iff.mp hbreak with rfl | rfl
      · exact .inl rfl
      · exact absurd (List.mem_append_right _ List.mem_cons_self) hreturn
    · exact .inr rfl

/-! ### Scans -/

namespace Scan

variable {opened : List OpenRegion} {lines : List (List Char)}

theorem emit_crlf (opened : List OpenRegion) (cs : List Char) :
    emit opened (Text.crlf cs) = Text.crlf (emit opened cs) := by
  unfold emit
  split <;> rfl

/-- How far a bracket reaches does not matter to the regions that are open behind it. -/
theorem turn?_withEnd (line lineEnd : List Char) (b : Bracket) :
    turn? defs opened (b.withEnd line lineEnd) = turn? defs opened b := by
  cases b <;> rfl

/-- **One line** in both ways of writing. -/
theorem step?_crlf (h : IsFeedLine line) :
    step? families defs opened (Text.crlf line) =
      (step? families defs opened line).map fun s => ⟨s.opened, Text.crlf s.output⟩ := by
  obtain ⟨body, lineEnd, hbody, hfeed, rfl⟩ := h
  -- the body is read in the same way before either end
  have hbracket := bracket?_append_end families hfeed.isLineEnd hbody
  have hbracket' := bracket?_append_end families hfeed.isLineEnd_crlf hbody
  cases hb : bracket? families body with
  | none =>
    rw [hb, Option.map_none] at hbracket hbracket'
    rw [← crlf_body_append hbody] at hbracket'
    rw [step?_plain hbracket, step?_plain hbracket', Option.map_some, emit_crlf]
  | some b =>
    have hrest : IsBody (Text.dropBytes b.span.stop body) :=
      hbody.sublist (dropBytes_suffix (bracket?_eq_some_iff.mp hb).2).sublist
    rw [hb, Option.map_some] at hbracket hbracket'
    -- behind the bracket stands the same text, up to what ends the line
    rw [crlf_body_append hbody, step?_bracket hbracket, step?_bracket hbracket', turn?_withEnd,
      turn?_withEnd, dropBytes_withEnd hb, dropBytes_withEnd hb, ← crlf_leftover hrest hfeed,
      Option.map_map]
    simp only [Function.comp_def, emit_crlf]

/-- **All lines** in both ways of writing. -/
theorem run?_crlf (h : ∀ line ∈ lines, IsFeedLine line) :
    run? families defs opened (lines.map Text.crlf) =
      (run? families defs opened lines).map fun s => ⟨s.opened, Text.crlf s.output⟩ := by
  -- along the lines; a line that fails does so in both ways of writing
  induction lines generalizing opened with
  | nil => rfl
  | cons line lines ih =>
    obtain ⟨hline, hlines⟩ := List.forall_mem_cons.mp h
    rw [List.map_cons, run?, run?, step?_crlf hline]
    cases step? families defs opened line with
    | none => rfl
    | some s =>
      rw [Option.map_some, Option.bind_some, Option.bind_some, ih hlines, Option.map_map,
        Option.map_map]
      simp only [Function.comp_def, Text.crlf_append]

end Scan

/-! ### What markers say -/

namespace Marker

/-- **What a marker says**, wherever it stands: its directive and its condition. -/
def content (m : Marker) : Kind × Option String :=
  (m.kind, m.condition.map (·.value))

theorem content_shift (m : Marker) (offset : Nat) : (m.shift offset).content = m.content := by
  obtain ⟨kind, span, _ | c⟩ := m <;> rfl

end Marker

theorem map_content_onLines (recognise : List Char → Option Marker) (offset : Nat)
    (lines : List (List Char)) :
    (Markers.onLines recognise offset lines).map Marker.content =
      lines.filterMap fun line => (recognise line).map Marker.content := by
  -- offsets grow differently in the two texts, so they are arbitrary
  induction lines generalizing offset with
  | nil => rfl
  | cons line lines ih =>
    rw [Markers.onLines, List.filterMap_cons, ← ih (offset + Text.byteLength line)]
    cases recognise line with
    | none => rfl
    | some m =>
      dsimp only [Option.map_some]
      rw [List.map_cons, Marker.content_shift]

/-- The markers of the text in both ways of writing say the same. -/
theorem content_locate_crlf (family : Family) (htext : '\r' ∉ text) :
    (locate family (Text.crlf text)).starts.map Marker.content =
        (locate family text).starts.map Marker.content ∧
      (locate family (Text.crlf text)).ends.map Marker.content =
        (locate family text).ends.map Marker.content := by
  unfold locate
  simp only [map_content_onLines, Text.lines_crlf, List.filterMap_map]
  -- line by line, since what a marker says does not depend on what ends its line
  refine ⟨List.filterMap_congr fun line hline => ?_, List.filterMap_congr fun line hline => ?_⟩
  · obtain ⟨body, lineEnd, hbody, hfeed, rfl⟩ := isFeedLine_of_mem_lines htext hline
    rw [Function.comp_apply, crlf_body_append hbody, startOnLine?_append_end hfeed.isLineEnd hbody,
      startOnLine?_append_end hfeed.isLineEnd_crlf hbody, Option.map_map, Option.map_map]
    rfl
  · obtain ⟨body, lineEnd, hbody, hfeed, rfl⟩ := isFeedLine_of_mem_lines htext hline
    rw [Function.comp_apply, crlf_body_append hbody, endOnLine?_append_end hfeed.isLineEnd hbody,
      endOnLine?_append_end hfeed.isLineEnd_crlf hbody, Option.map_map, Option.map_map]
    rfl

/-! ### What is reported -/

/-- The cause that is reported on a condition, if it does not parse. -/
def Condition.cause? (text : String) : Option Cause :=
  match Condition.parse text with
  | .ok _ => none
  | .error e => some (.malformedCondition text e.reason.message)

theorem cause_conditionDiagnostic? (source : Source) (m : Marker) :
    (m.conditionDiagnostic? source).map (·.cause) = m.content.2.bind Condition.cause? := by
  unfold Marker.conditionDiagnostic? Marker.content Condition.cause?
  cases m.condition with
  | none => rfl
  | some c =>
    dsimp only [Option.map_some, Option.bind_some]
    cases Condition.parse c.value <;> rfl

theorem hasMarkerError_iff_not_balanced :
    (applyFamily family text defs path).HasMarkerError ↔ ¬ Balanced (ofText [family] text) := by
  rw [hasMarkerError_iff, balanced_iff fun b => family_of_mem_ofText]
  constructor
  · -- balanced markers have pairings, and these give a scan that ends with nothing open
    rintro h ⟨ps, hps⟩
    obtain ⟨x, hx, -⟩ := exists_run?_of_pairings defs hps
    exact h x hx
  · rintro h x hx
    obtain ⟨ps, hps, -⟩ := run?_lines_eq_some_iff.mp hx
    exact h ⟨ps, hps⟩

/-- **What is reported**, places apart, depends on what the markers say and on their being
balanced. -/
theorem causes_congr {text' : List Char}
    (hstarts : (locate family text').starts.map Marker.content =
      (locate family text).starts.map Marker.content)
    (hends : (locate family text').ends.map Marker.content =
      (locate family text).ends.map Marker.content)
    (herror : (applyFamily family text' defs path).HasMarkerError ↔
      (applyFamily family text defs path).HasMarkerError) :
    (applyFamily family text' defs path).diagnostics.map (·.cause) =
      (applyFamily family text defs path).diagnostics.map (·.cause) := by
  have hfamily : ∀ t, ∀ b ∈ ofText [family] t, b.family = family := fun _ _ => family_of_mem_ofText
  rw [hasMarkerError_iff_not_balanced, hasMarkerError_iff_not_balanced, not_iff_not] at herror
  by_cases hbalanced : Balanced (ofText [family] text)
  · -- one report for each condition that does not parse
    obtain ⟨ps, hps⟩ := (balanced_iff (hfamily text)).mp hbalanced
    obtain ⟨ps', hps'⟩ := (balanced_iff (hfamily text')).mp (herror.mpr hbalanced)
    have hcauses : ∀ (source : Source) (ms : List Marker),
        (ms.filterMap (Marker.conditionDiagnostic? source)).map (·.cause) =
          (ms.map Marker.content).filterMap fun content => content.2.bind Condition.cause? := by
      intro source ms
      rw [List.map_filterMap, List.filterMap_map]
      exact List.filterMap_congr fun m _ => cause_conditionDiagnostic? source m
    rw [(applyFamily_of_pairings hps defs path).2, (applyFamily_of_pairings hps' defs path).2]
    dsimp only
    rw [hcauses, hcauses, hstarts]
  · -- one report, which depends on the numbers of markers
    obtain ⟨d, hout, -, hcause⟩ := applyFamily_of_not_balanced hbalanced defs path
    obtain ⟨d', hout', -, hcause'⟩ :=
      applyFamily_of_not_balanced (fun h => hbalanced (herror.mp h)) defs path
    have hnstarts := congrArg List.length hstarts
    have hnends := congrArg List.length hends
    rw [List.length_map, List.length_map] at hnstarts hnends
    rw [hout, hout', List.map_singleton, List.map_singleton, hcause, hcause', hnstarts, hnends]

/-! ### Passes -/

theorem not_mem_applyFamily {c : Char} (h : c ∉ text) :
    c ∉ (applyFamily family text defs path).text := by
  intro hmem
  refine h ((linesRemain_applyFamily family text defs path).mem ?_ hmem)
  exact fun line rest hrest => hrest.suffix

/-- **One pass** in both ways of writing. -/
theorem applyFamily_crlf (family : Family) (defs : Definitions) (path : String)
    (htext : '\r' ∉ text) :
    (applyFamily family (Text.crlf text) defs path).text =
        Text.crlf (applyFamily family text defs path).text ∧
      (applyFamily family (Text.crlf text) defs path).diagnostics.map (·.cause) =
        (applyFamily family text defs path).diagnostics.map (·.cause) := by
  have hrun : run? [family] defs [] (Text.lines (Text.crlf text)) =
      (run? [family] defs [] (Text.lines text)).map fun s => ⟨s.opened, Text.crlf s.output⟩ := by
    rw [Text.lines_crlf]
    exact run?_crlf fun line hline => isFeedLine_of_mem_lines htext hline
  -- texts follow from the scans, and causes from what the markers say
  obtain ⟨hstarts, hends⟩ := content_locate_crlf family htext
  by_cases herror : ∃ x, run? [family] defs [] (Text.lines text) = some ⟨[], x⟩
  · obtain ⟨x, hx⟩ := herror
    rw [hx, Option.map_some] at hrun
    obtain ⟨htext, hok⟩ := applyFamily_of_run? hx path
    obtain ⟨htext', hok'⟩ := applyFamily_of_run? hrun path
    refine ⟨?_, causes_congr hstarts hends (iff_of_false hok' hok)⟩
    rw [htext, htext']
  · -- the scans fail together
    have herror' : ∀ x, run? [family] defs [] (Text.lines (Text.crlf text)) ≠ some ⟨[], x⟩ := by
      intro x hx
      rw [hrun] at hx
      obtain ⟨s, hs, heq⟩ := Option.map_eq_some_iff.mp hx
      refine herror ⟨s.output, ?_⟩
      rw [hs, ← (Scan.mk.inj heq).1]
    obtain ⟨htext, hbad⟩ := applyFamily_of_not_run? (not_exists.mp herror) path
    obtain ⟨htext', hbad'⟩ := applyFamily_of_not_run? herror' path
    refine ⟨?_, causes_congr hstarts hends (iff_of_true hbad' hbad)⟩
    rw [htext, htext']

/-- **All passes** in both ways of writing. -/
theorem applyFamilies_crlf (families : List Family) (defs : Definitions) (path : String)
    (htext : '\r' ∉ text) :
    (applyFamilies families (Text.crlf text) defs path).text =
        Text.crlf (applyFamilies families text defs path).text ∧
      (applyFamilies families (Text.crlf text) defs path).diagnostics.map (·.cause) =
        (applyFamilies families text defs path).diagnostics.map (·.cause) := by
  induction families generalizing text with
  | nil => exact ⟨rfl, rfl⟩
  | cons family families ih =>
    obtain ⟨hfirst, hcauses⟩ := applyFamily_crlf family defs path htext
    -- a pass brings in no carriage return, so the next one can be asked about its text
    obtain ⟨hrest, hcauses'⟩ := ih (not_mem_applyFamily htext)
    rw [applyFamilies_cons, applyFamilies_cons, hfirst]
    refine ⟨hrest, ?_⟩
    dsimp only
    rw [List.map_append, List.map_append, hcauses, hcauses']

/-! ### The transformation -/

/-- **Line endings.** If every line feed of a source without carriage returns is written as a
carriage return and a line feed, then the transformed code is the same with its line feeds written
in this way, and the same causes are reported in the same order: the same numbers of markers, the
same conditions and the same reasons for their being malformed. -/
theorem transform_crlf (source path : String) (defs : Definitions) (h : '\r' ∉ source.toList) :
    (transform (String.ofList (Text.crlf source.toList)) path defs).code =
        String.ofList (Text.crlf (transform source path defs).code.toList) ∧
      (transform (String.ofList (Text.crlf source.toList)) path defs).diagnostics.map (·.cause) =
        (transform source path defs).diagnostics.map (·.cause) := by
  obtain ⟨htext, hcauses⟩ := applyFamilies_crlf Family.passOrder defs path h
  unfold transform
  dsimp only
  rw [String.toList_ofList, String.toList_ofList, htext]
  exact ⟨rfl, hcauses⟩

/-- A marker that does not take up its line, a malformed condition, and an end marker without a
start. -/
def feedText : String :=
  "<!-- #ifdef A --> é\n//#ifndef A == \nb\n//#endif\n<!-- #endif -->\n/* #endif */ c"

/-- The theorem at a text that is left with a line feed, and on which two things are reported. -/
theorem transform_crlf_reports :
    '\r' ∉ feedText.toList ∧
    (transform (String.ofList (Text.crlf feedText.toList)) "a.ts" siblingDefs).code =
      " é\r\n/* #endif */ c" ∧
    (transform (String.ofList (Text.crlf feedText.toList)) "a.ts" siblingDefs).diagnostics.map
        (·.cause) =
      [.malformedCondition "A ==" "unexpected end of condition",
        .imbalancedMarkers .block "a.ts" 0 1] := by
  have h : '\r' ∉ feedText.toList := by decide +kernel
  obtain ⟨hcode, hcauses⟩ := transform_crlf feedText "a.ts" siblingDefs h
  refine ⟨h, ?_, ?_⟩
  · rw [hcode]
    decide +kernel
  · rw [hcauses]
    decide +kernel

end CondRegions
