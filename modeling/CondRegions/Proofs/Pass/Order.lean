import CondRegions.Proofs.Marker.Merged
import CondRegions.Proofs.Pass.Simulation

/-!
# The order of the passes

Three passes, one after the other, do what one scan of all styles does, in whatever order they come.
A pass leaves a text of which three things are still true (`Pending`): the markers take up their
lines, the scan of all styles ends with nothing open and lets the same text through, and the styles
that have been dealt with have no markers left. Once all styles have been dealt with, the text is
what the scan lets through (`Pending.text_eq`).

The scan of all styles is that of one word, in which the markers of the styles are merged by offset
(`mergedWord_eq`). `applyFamilies_order` puts the two together.
-/

namespace CondRegions

open MarkerLine Word Scan

/-! ### Passes one after the other -/

/-- A further pass, with what has been reported so far. -/
def nextPass (defs : Definitions) (path : String) (out : PassOutput) (family : Family) :
    PassOutput :=
  ⟨(applyFamily family out.text defs path).text,
    out.diagnostics ++ (applyFamily family out.text defs path).diagnostics⟩

/-- What has been reported so far does not matter to further passes. -/
theorem foldl_nextPass (defs : Definitions) (path : String) (families : List Family)
    (text : List Char) (diagnostics : List Diagnostic) :
    families.foldl (nextPass defs path) ⟨text, diagnostics⟩ =
      ⟨(families.foldl (nextPass defs path) ⟨text, []⟩).text,
        diagnostics ++ (families.foldl (nextPass defs path) ⟨text, []⟩).diagnostics⟩ := by
  -- what has been reported before is carried along in front
  induction families generalizing text diagnostics with
  | nil => rw [List.foldl_nil, List.foldl_nil, List.append_nil]
  | cons F families ih =>
    rw [List.foldl_cons, List.foldl_cons, nextPass, nextPass, ih, List.nil_append,
      ih _ (applyFamily F text defs path).diagnostics, List.append_assoc]

/-- The first pass, and the other ones on the text that it leaves. -/
theorem applyFamilies_cons (F : Family) (families : List Family) (text : List Char)
    (defs : Definitions) (path : String) :
    applyFamilies (F :: families) text defs path =
      ⟨(applyFamilies families (applyFamily F text defs path).text defs path).text,
        (applyFamily F text defs path).diagnostics ++
          (applyFamilies families (applyFamily F text defs path).text defs path).diagnostics⟩ :=
  foldl_nextPass defs path families _ _

/-- The transformed code, pass by pass. -/
theorem toList_code_transform (source path : String) (defs : Definitions) :
    (transform source path defs).code.toList =
      (applyFamily .block (applyFamily .line (applyFamily .html source.toList defs path).text
        defs path).text defs path).text := by
  unfold transform Family.passOrder
  rw [applyFamilies_cons, applyFamilies_cons, applyFamilies_cons]
  exact String.toList_ofList

/-- **What is left to do.** The markers of a text take up their lines, its scan lets `out` through,
and no markers are left of the styles that have been dealt with. -/
structure Pending (families done : List Family) (defs : Definitions) (out text : List Char) :
    Prop where
  whole : WholeLines families (Text.lines text)
  scan : run? families defs [] (Text.lines text) = some ⟨[], out⟩
  clear : ∀ F ∈ done, Clear families F (Text.lines text)

namespace Pending

variable {families done order : List Family} {defs : Definitions} {out text : List Char}

/-- **One pass.** It succeeds and deals with its style. -/
theorem pass {F : Family} (h : Pending families done defs out text) (hF : F ∈ families)
    (path : String) :
    Pending families (F :: done) defs out (applyFamily F text defs path).text ∧
      ¬ (applyFamily F text defs path).HasMarkerError := by
  -- with nothing open at either end, the simulation is about the whole text
  obtain ⟨kept, hkept⟩ := run?_simulates hF h.whole h.scan
  obtain ⟨htext, hok⟩ := applyFamily_of_run? hkept.pass path
  have hlines : Text.lines kept.flatten = kept :=
    Text.lines_flatten ((Text.areLines_lines text).sublist hkept.sublist)
  refine ⟨?_, hok⟩
  rw [htext]
  refine ⟨?_, ?_, List.forall_mem_cons.mpr ⟨?_, fun G hG => ?_⟩⟩ <;> rw [hlines]
  · -- what holds of all lines holds of those that are kept
    exact fun l hl => h.whole l (hkept.sublist.mem hl)
  · exact hkept.rest
  · exact hkept.clear
  · exact fun l hl => h.clear G hG l (hkept.sublist.mem hl)

/-- **All passes** of a list of styles succeed and deal with their styles. -/
theorem passes (h : Pending families done defs out text) (horder : ∀ F ∈ order, F ∈ families)
    (path : String) :
    Pending families (order.reverse ++ done) defs out (applyFamilies order text defs path).text ∧
      ¬ (applyFamilies order text defs path).HasMarkerError := by
  -- each pass leaves a pending text for the next one, with one style less to do
  induction order generalizing done text with
  | nil => exact ⟨h, fun ⟨_, hd, _⟩ => List.not_mem_nil hd⟩
  | cons F order ih =>
    obtain ⟨hF, horder⟩ := List.forall_mem_cons.mp horder
    obtain ⟨hfirst, hok⟩ := h.pass hF path
    obtain ⟨hrest, hok'⟩ := ih hfirst horder
    rw [applyFamilies_cons, List.reverse_cons, List.append_assoc, List.singleton_append]
    refine ⟨hrest, ?_⟩
    rintro ⟨d, hd, hcat⟩
    rcases List.mem_append.mp hd with hd | hd
    · exact hok ⟨d, hd, hcat⟩
    · exact hok' ⟨d, hd, hcat⟩

/-- A text in which all styles have been dealt with is what its scan lets through. -/
theorem text_eq (h : Pending families done defs out text) (hdone : ∀ F ∈ families, F ∈ done) :
    text = out := by
  -- a line with a marker would have one of a style that has been dealt with
  have hplain : ∀ line ∈ Text.lines text, bracket? families line = none := by
    intro line hline
    cases hb : bracket? families line with
    | none => rfl
    | some b =>
      have hmem := (bracket?_eq_some_iff.mp hb).1
      exact absurd rfl (h.clear b.family (hdone _ hmem) line hline b hb)
  have hscan := run?_of_plain defs hplain
  rw [h.scan, Text.flatten_lines] at hscan
  exact (congrArg Scan.output (Option.some.inj hscan)).symm

end Pending

/-! ### Markers that take up their lines -/

/-- A located marker of the style extends to a line break or to the end of the text. -/
def ExtendsToBreak (source : List Char) (m : Marker) : Prop :=
  m.span.stop = Text.byteLength source ∨ (m.span.extract source).getLast? = some '\n'

instance (source : List Char) (m : Marker) : Decidable (ExtendsToBreak source m) :=
  inferInstanceAs (Decidable (_ ∨ _))

/-- Where a line begins with a bracket that extends to a line break, the bracket takes up the
line. -/
theorem stop_eq_of_extendsToBreak {families : List Family} {source line : List Char}
    {before after : List (List Char)} {b : Bracket}
    (hlines : Text.lines source = before ++ line :: after) (hb : bracket? families line = some b)
    (h : ExtendsToBreak source (b.shift (Text.byteLength before.flatten)).marker) :
    b.span.stop = Text.byteLength line := by
  obtain ⟨marker, rest, rfl, hne, hspan⟩ := heads_of_bracket? hb
  have hstart : b.span.start = 0 := congrArg Span.start hspan
  have hstop : b.span.stop = Text.byteLength marker := congrArg Span.stop hspan
  have hmarker : (b.shift (Text.byteLength before.flatten)).marker.span =
      ⟨Text.byteLength before.flatten,
        Text.byteLength before.flatten + Text.byteLength marker⟩ := by
    have := Bracket.span_shift b (Text.byteLength before.flatten)
    rw [Bracket.span] at this
    rw [this, Span.shift, hstart, hstop, Nat.zero_add, Nat.add_comm]
  -- the source is cut around the marker
  have hsource : source = before.flatten ++ marker ++ (rest ++ after.flatten) := by
    rw [← Text.flatten_lines source, hlines, List.flatten_append, List.flatten_cons]
    simp only [List.append_assoc]
  suffices hrest : rest = [] by rw [hstop, hrest, List.append_nil]
  rw [ExtendsToBreak, hmarker] at h
  rcases h with hend | hbreak
  · -- the marker reaches to the end of the text, so nothing is behind it
    change Text.byteLength before.flatten + Text.byteLength marker = Text.byteLength source at hend
    have hlen := congrArg Text.byteLength hsource
    simp only [Text.byteLength_append] at hlen
    exact Text.byteLength_eq_zero.mp (by omega)
  · -- a line break before the end of the line is impossible
    by_contra hne'
    have hlast : marker.getLast? = some '\n' := by
      rwa [hsource, Span.extract, Text.slice_split] at hbreak
    have hmem : '\n' ∈ (marker ++ rest).dropLast := by
      rw [List.dropLast_append_of_ne_nil hne']
      exact List.mem_append_left _ (List.mem_of_getLast? hlast)
    refine (Text.areLines_lines source).inner (marker ++ rest) ?_ hmem
    rw [hlines]
    exact List.mem_append_right _ List.mem_cons_self

theorem wholeLines_of_extendsToBreak {source : List Char}
    (h : ∀ F ∈ [Family.html, .block],
      ∀ m ∈ (locate F source).starts ++ (locate F source).ends, ExtendsToBreak source m) :
    WholeLines Family.passOrder (Text.lines source) := by
  intro line hline b hb
  have hof := (bracket?_eq_some_iff.mp hb).2
  obtain ⟨before, after, hlines⟩ := List.append_of_mem hline
  by_cases hfam : b.family = .line
  · -- markers of the line style take up their lines in any text
    rw [hfam] at hof
    exact stop_of_line_style hof
  · -- at the place of its line, the bracket is a marker that `locate` finds
    have hmem : b.family ∈ [Family.html, .block] := by
      revert hfam
      cases b.family <;> decide
    refine stop_eq_of_extendsToBreak hlines hb (h b.family hmem _ ?_)
    have hword : b.shift (Text.byteLength before.flatten) ∈ ofText [b.family] source := by
      refine mem_ofLines.mpr ⟨before, line, after, b, hlines, ?_, by rw [Nat.zero_add]⟩
      exact bracket?_eq_some_iff.mpr ⟨List.mem_singleton_self _, hof⟩
    cases b with
    | opening f m => exact List.mem_append_left _ (mem_starts_locate.mpr hword)
    | closing f m => exact List.mem_append_right _ (mem_ends_locate.mpr hword)

/-! ### The simultaneous pass -/

/-- **All styles at once.** Whether the byte at offset `p` lies in no marker, and in no region whose
condition fails. -/
def keptAtOnce (defs : Definitions) (w : List Bracket) (ps : List Pairing) (p : Nat) : Bool :=
  w.all (fun b => !b.span.covers p) && ps.all fun q => q.opening.keeps defs || !q.span.covers p

/-- A byte is kept by all regions around it exactly if it lies in no marker and in no region whose
condition fails. -/
theorem keepsByte_eq_keptAtOnce {w : List Bracket} {ps : List Pairing} (hw : Ordered w)
    (h : pairings [] w = .ok ps) (defs : Definitions) (p : Nat) :
    Region.keepsByte (ps.map (Pairing.toRegion defs)) p = keptAtOnce defs w ps p := by
  have hw' : Ordered (stackWord [] ++ w) := hw
  rw [Bool.eq_iff_iff, keptAtOnce, Bool.and_eq_true, List.all_eq_true, List.all_eq_true]
  constructor
  · intro hkeep
    -- a byte of a marker would be left out by the region of the marker
    refine ⟨fun b hb => ?_, fun q hq => ?_⟩
    · rw [Bool.not_eq_true', Bool.eq_false_iff]
      intro hcovers
      rw [keepsByte_bracket hw' h hb hcovers] at hkeep
      exact absurd hkeep Bool.false_ne_true
    · rw [Bool.or_eq_true, Bool.not_eq_true', or_iff_not_imp_right, Bool.not_eq_false]
      exact fun hcovers =>
        (Region.keepsByte_eq_true.mp hkeep _ (List.mem_map_of_mem hq) hcovers).1
  · rintro ⟨hmarkers, hregions⟩
    refine Region.keepsByte_eq_true.mpr fun r hr hcovers => ?_
    obtain ⟨q, hq, rfl⟩ := List.mem_map.mp hr
    have hkeeps := hregions q hq
    rw [Bool.or_eq_true, Bool.not_eq_true', or_iff_not_imp_right, Bool.not_eq_false] at hkeeps
    refine ⟨hkeeps hcovers, ?_⟩
    -- the byte lies in neither of the two markers of the region
    obtain ⟨f, hf⟩ := mem_openings.mp ((opening_mem_of_pairings h hq).resolve_left List.not_mem_nil)
    obtain ⟨g, hg⟩ := mem_closings.mp (closing_mem_of_pairings h hq)
    have hopening := hmarkers _ hf
    have hclosing := hmarkers _ hg
    rw [Bool.not_eq_true', Span.covers_eq_false] at hopening hclosing
    rw [Pairing.toRegion_span, Span.covers_eq_true] at hcovers
    rw [Pairing.toRegion_inner, Span.covers_eq_true]
    simp only [Bracket.span_opening, Bracket.span_closing, Pairing.span, Pairing.inner] at *
    omega

/-- **The order of the passes does not matter.** Let the markers of the html and the block style
extend to a line break or to the end of the text, and let the markers of all styles, merged by
offset, be well nested, each end marker closing a start marker of its own style. Then the passes, in
any order, report no structural error, and give the bytes that lie in no marker and in no region
whose condition fails. -/
theorem applyFamilies_order (source : List Char) (ps : List Pairing)
    (hbreak : ∀ F ∈ [Family.html, .block],
      ∀ m ∈ (locate F source).starts ++ (locate F source).ends, ExtendsToBreak source m)
    (hnested : pairings [] (mergedWord source) = .ok ps) (defs : Definitions) (path : String) :
    ∃ out, Text.bytes out = Text.select (keptAtOnce defs (mergedWord source) ps) source ∧
      (∀ order : List Family, order.Perm Family.passOrder →
        (applyFamilies order source defs path).text = out ∧
          ¬ (applyFamilies order source defs path).HasMarkerError) ∧
      (transform (String.ofList source) path defs).code = String.ofList out ∧
      ∀ d ∈ (transform (String.ofList source) path defs).diagnostics,
        d.cause.category ≠ .marker := by
  rw [mergedWord_eq] at hnested ⊢
  -- the scan of all styles at once says what is to come out
  obtain ⟨out, hscan, hbytes⟩ := exists_run?_of_pairings defs hnested
  have hkeep : Region.keepsByte (ps.map (Pairing.toRegion defs)) =
      keptAtOnce defs (ofText Family.passOrder source) ps :=
    funext (keepsByte_eq_keptAtOnce (ordered_ofText _ source) hnested defs)
  -- before the first pass nothing has been dealt with
  have hpending : Pending Family.passOrder [] defs out source :=
    ⟨wholeLines_of_extendsToBreak hbreak, hscan, nofun⟩
  have hpasses : ∀ order : List Family, order.Perm Family.passOrder →
      (applyFamilies order source defs path).text = out ∧
        ¬ (applyFamilies order source defs path).HasMarkerError := by
    intro order horder
    obtain ⟨hdone, hok⟩ := hpending.passes (fun F => horder.mem_iff.mp) path
    refine ⟨hdone.text_eq fun F hF => ?_, hok⟩
    rw [List.append_nil, List.mem_reverse]
    exact horder.mem_iff.mpr hF
  obtain ⟨htext, hok⟩ := hpasses Family.passOrder (List.Perm.refl _)
  refine ⟨out, by rw [hbytes, hkeep], hpasses, ?_, ?_⟩
  · rw [transform, String.toList_ofList, htext]
  · intro d hd hcat
    rw [transform, String.toList_ofList] at hd
    exact hok ⟨d, hd, hcat⟩

/-- A region of each style, one inside the other; the one in the middle is dropped. -/
def mixedText : List Char :=
  ("<!-- #ifdef A -->\na\n//#ifndef A\nb\n/* #ifdef A */\nc\n/* #endif */\n//#endif\n" ++
    "<!-- #endif -->\nd").toList

/-- The pairs of the merged markers, the innermost first. -/
def mixedPairings : List Pairing :=
  [⟨⟨.ifdef, ⟨34, 49⟩, some ⟨"A", ⟨44, 45⟩⟩⟩, ⟨.endif, ⟨51, 64⟩, none⟩, 2⟩,
    ⟨⟨.ifndef, ⟨20, 32⟩, some ⟨"A", ⟨30, 31⟩⟩⟩, ⟨.endif, ⟨64, 73⟩, none⟩, 1⟩,
    ⟨⟨.ifdef, ⟨0, 18⟩, some ⟨"A", ⟨12, 13⟩⟩⟩, ⟨.endif, ⟨73, 89⟩, none⟩, 0⟩]

/-- The theorem at a text with all three styles, dealt with from the inside out. -/
theorem applyFamilies_order_mixed :
    (∀ F ∈ [Family.html, .block], ∀ m ∈ (locate F mixedText).starts ++ (locate F mixedText).ends,
      ExtendsToBreak mixedText m) ∧
    pairings [] (mergedWord mixedText) = .ok mixedPairings ∧
    ∃ out, Text.bytes out =
        Text.select (keptAtOnce siblingDefs (mergedWord mixedText) mixedPairings) mixedText ∧
      (applyFamilies [.block, .line, .html] mixedText siblingDefs "a.ts").text = out := by
  have hbreak : ∀ F ∈ [Family.html, .block],
      ∀ m ∈ (locate F mixedText).starts ++ (locate F mixedText).ends,
        ExtendsToBreak mixedText m := by
    decide +kernel
  have hnested : pairings [] (mergedWord mixedText) = .ok mixedPairings := by
    rw [mergedWord_eq]
    decide +kernel
  obtain ⟨out, hbytes, horder, -⟩ :=
    applyFamilies_order mixedText mixedPairings hbreak hnested siblingDefs "a.ts"
  exact ⟨hbreak, hnested, out, hbytes, (horder [.block, .line, .html] (by decide)).1⟩

end CondRegions
