import CondRegions.Proofs.Pass.Concatenation

/-!
# Transforming twice

A text without markers is left as it is by every pass (`transform_of_unmarked`). So transforming
twice changes no more than transforming once, if the first time leaves no markers.

This takes two conditions. A pass whose markers do not pair up leaves them where they are, so there
must be no structural error. And what stands behind a marker on its line comes to stand at the start
of the line once the marker is gone, where it may be a marker itself; so markers must take up their
lines. Then a pass leaves out whole lines, and those of its own style among them (`Cleared.pass`),
and no pass brings back what an earlier one has removed. The styles need not be nested in one
another.
-/

namespace CondRegions

open MarkerLine Word Scan

variable {family : Family} {families done : List Family} {text : List Char} {defs : Definitions}
  {path : String}

/-! ### Texts without markers -/

/-- **Unmarked texts.** No line begins with a marker of the style. -/
def Unmarked (family : Family) (text : List Char) : Prop :=
  ∀ line ∈ Text.lines text, bracket? [family] line = none

theorem Unmarked.locate_eq (h : Unmarked family text) : locate family text = Markers.none := by
  have hword : ofText [family] text = [] := by
    refine List.eq_nil_iff_forall_not_mem.mpr fun b hb => ?_
    obtain ⟨before, line, after, c, hlines, hc, -⟩ := mem_ofLines.mp hb
    have hline : line ∈ Text.lines text := by
      rw [hlines]
      exact List.mem_append_right _ List.mem_cons_self
    rw [h line hline] at hc
    cases hc
  rw [locate_eq_ofText, hword]
  rfl

/-- Passes do nothing to a text without markers of their styles, and report nothing. -/
theorem applyFamilies_of_unmarked (h : ∀ family ∈ families, Unmarked family text)
    (defs : Definitions) (path : String) : applyFamilies families text defs path = ⟨text, []⟩ := by
  -- each pass finds no markers and hands on the same text
  induction families with
  | nil => rfl
  | cons family families ih =>
    obtain ⟨hfirst, hrest⟩ := List.forall_mem_cons.mp h
    have hpass : applyFamily family text defs path = ⟨text, []⟩ := by
      unfold applyFamily
      rw [hfirst.locate_eq]
      rfl
    rw [applyFamilies_cons, hpass]
    exact ih hrest

theorem transform_of_unmarked {source : String}
    (h : ∀ family ∈ Family.passOrder, Unmarked family source.toList) (path : String)
    (defs : Definitions) : transform source path defs = ⟨source, [], false⟩ := by
  unfold transform
  rw [applyFamilies_of_unmarked h]
  simp only [String.ofList_toList, bne_self_eq_false]

/-! ### Passes that leave no markers -/

/-- Of several styles whose markers take up their lines, each is one. -/
theorem Scan.WholeLines.singleton {lines : List (List Char)} (h : WholeLines families lines)
    (hfamily : family ∈ families) : WholeLines [family] lines := by
  intro line hline b hb
  obtain ⟨hmem, hof⟩ := bracket?_eq_some_iff.mp hb
  refine h line hline b (bracket?_eq_some_iff.mpr ⟨?_, hof⟩)
  rwa [List.mem_singleton.mp hmem]

/-- **Cleared texts.** The markers of a text take up their lines, and none are left of the styles
that have been dealt with. -/
structure Cleared (families done : List Family) (text : List Char) : Prop where
  whole : WholeLines families (Text.lines text)
  unmarked : ∀ family ∈ done, Unmarked family text

namespace Cleared

/-- A text of which whole lines are left out stays cleared. -/
theorem sublist {kept : List (List Char)} (h : Cleared families done text)
    (hkept : kept.Sublist (Text.lines text)) : Cleared families done kept.flatten := by
  -- the lines that are kept are the lines of what they make up
  have hlines : Text.lines kept.flatten = kept :=
    Text.lines_flatten ((Text.areLines_lines text).sublist hkept)
  refine ⟨?_, fun family hfamily => ?_⟩
  · rw [hlines]
    exact fun line hline => h.whole line (hkept.mem hline)
  · unfold Unmarked
    rw [hlines]
    exact fun line hline => h.unmarked family hfamily line (hkept.mem hline)

/-- **One pass** without a structural error clears its style. -/
theorem pass (h : Cleared families done text) (hfamily : family ∈ families)
    (hok : ¬ (applyFamily family text defs path).HasMarkerError) :
    Cleared families (family :: done) (applyFamily family text defs path).text := by
  obtain ⟨x, hx⟩ := exists_run?_of_not_hasMarkerError hok
  -- the scan of the style is simulated by itself: the lines that are kept have none of its markers
  obtain ⟨kept, hkept⟩ :=
    run?_simulates (List.mem_singleton_self family) (h.whole.singleton hfamily) hx
  have hx' : x = kept.flatten :=
    congrArg Scan.output (Option.some.inj (hx.symm.trans hkept.pass))
  rw [(applyFamily_of_run? hx path).1, hx']
  have hcleared := h.sublist hkept.sublist
  refine ⟨hcleared.whole, List.forall_mem_cons.mpr ⟨?_, hcleared.unmarked⟩⟩
  intro line hline
  rw [Text.lines_flatten ((Text.areLines_lines text).sublist hkept.sublist)] at hline
  -- a marker of the style on a line that is kept contradicts the simulation
  cases hb : bracket? [family] line with
  | none => rfl
  | some b =>
    have hmem := (bracket?_eq_some_iff.mp hb).1
    exact absurd (List.mem_singleton.mp hmem) (hkept.clear line hline b hb)

/-- **All passes** of a list of styles, without a structural error, clear these styles. -/
theorem passes {order : List Family} (h : Cleared families done text)
    (horder : ∀ family ∈ order, family ∈ families)
    (hok : ¬ (applyFamilies order text defs path).HasMarkerError) :
    Cleared families (order.reverse ++ done) (applyFamilies order text defs path).text := by
  -- on the styles still to come: those that are dealt with go to the front, the last one first
  induction order generalizing done text with
  | nil => exact h
  | cons family order ih =>
    obtain ⟨hfamily, horder⟩ := List.forall_mem_cons.mp horder
    rw [hasMarkerError_cons, not_or] at hok
    rw [applyFamilies_cons, List.reverse_cons, List.append_assoc, List.singleton_append]
    exact ih (h.pass hfamily hok.1) horder hok.2

end Cleared

/-! ### Twice -/

/-- **Idempotence.** Let the markers of the html and of the block style extend to a line break or to
the end of the text, and let no structural error be reported. Then the transformed code has no
markers of any style, and transforming it again, with whatever definitions, changes nothing and
reports nothing. -/
theorem transform_idempotent (source path : String) (defs : Definitions)
    (hok : ∀ d ∈ (transform source path defs).diagnostics, d.cause.category ≠ .marker)
    (hbreak : ∀ family ∈ [Family.html, .block],
      ∀ m ∈ (locate family source.toList).starts ++ (locate family source.toList).ends,
        ExtendsToBreak source.toList m) :
    (∀ family, locate family (transform source path defs).code.toList = Markers.none) ∧
    ∀ path' defs', transform (transform source path defs).code path' defs' =
      { code := (transform source path defs).code, diagnostics := [], changed := false } := by
  -- nothing has been dealt with at first, and all three styles in the end
  have hcleared : Cleared Family.passOrder [] source.toList :=
    ⟨wholeLines_of_extendsToBreak hbreak, nofun⟩
  have hdone : Cleared Family.passOrder (Family.passOrder.reverse ++ [])
      (applyFamilies Family.passOrder source.toList defs path).text :=
    hcleared.passes (fun _ h => h) fun ⟨d, hd, hcategory⟩ => hok d hd hcategory
  have hunmarked : ∀ family ∈ Family.passOrder,
      Unmarked family (transform source path defs).code.toList := by
    intro family hfamily
    have hcode : (transform source path defs).code.toList =
        (applyFamilies Family.passOrder source.toList defs path).text := String.toList_ofList
    rw [hcode]
    refine hdone.unmarked family ?_
    rwa [List.append_nil, List.mem_reverse]
  refine ⟨fun family => (hunmarked family ?_).locate_eq, fun path' defs' => ?_⟩
  · cases family <;> decide
  · exact transform_of_unmarked hunmarked path' defs'

/-- Three regions of different styles, none of which lies inside another one. -/
def crossingText : String :=
  "<!-- #ifdef A -->\r\n//#ifndef B\na\n<!-- #endif -->\n" ++
    "/* #ifdef A */\nb\n//#endif\nc\n/* #endif */"

/-- The theorem at regions that cross. -/
theorem transform_idempotent_crossing :
    (∀ d ∈ (transform crossingText "a.ts" siblingDefs).diagnostics, d.cause.category ≠ .marker) ∧
    (∀ family ∈ [Family.html, .block],
      ∀ m ∈ (locate family crossingText.toList).starts ++ (locate family crossingText.toList).ends,
        ExtendsToBreak crossingText.toList m) ∧
    (transform crossingText "a.ts" siblingDefs).code = "a\nb\nc\n" ∧
    transform "a\nb\nc\n" "b.ts" FinMap.empty = ⟨"a\nb\nc\n", [], false⟩ := by
  have hok : ∀ d ∈ (transform crossingText "a.ts" siblingDefs).diagnostics,
      d.cause.category ≠ .marker := by
    decide +kernel
  have hbreak : ∀ family ∈ [Family.html, .block],
      ∀ m ∈ (locate family crossingText.toList).starts ++ (locate family crossingText.toList).ends,
        ExtendsToBreak crossingText.toList m := by
    decide +kernel
  have hcode : (transform crossingText "a.ts" siblingDefs).code = "a\nb\nc\n" := by
    decide +kernel
  obtain ⟨-, hagain⟩ := transform_idempotent crossingText "a.ts" siblingDefs hok hbreak
  rw [hcode] at hagain
  exact ⟨hok, hbreak, hcode, hagain "b.ts" FinMap.empty⟩

end CondRegions
