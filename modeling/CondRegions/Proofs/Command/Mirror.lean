import CondRegions.Proofs.Command.Process
import Mathlib.Data.Set.Card

/-!
# What the process command leaves behind

A run of the process command that succeeds has emitted every source, has touched no other file, and
its summary counts the sources (`Command.process_mirrors`). Neither success nor what is left behind
depends on the order of the walk.
-/

namespace CondRegions

variable {T : Transformer} {src out way p : Place} {t t' t₁ : FileTree}
variable {os os' : List FileOutcome} {ways : List Place}
variable {listing : FileTree → Place → List (String × EntryType)}

/-! ### Counting -/

theorem encard_of_nodup {ways : List Place} (h : ways.Nodup) :
    Set.encard {way | way ∈ ways} = ways.length := by
  rw [← List.coe_toFinset, Set.encard_coe_eq_coe_finsetCard, List.toFinset_card_of_nodup h]

namespace Summary

/-- A summary does not depend on the order of the outcomes. -/
theorem ofOutcomes_perm (h : os.Perm os') : ofOutcomes os = ofOutcomes os' := by
  unfold ofOutcomes
  rw [h.countP_eq, h.countP_eq, h.countP_eq, (h.flatMap_right _).length_eq]

/-- Without failures every file was either transformed or copied. -/
theorem transformed_add_copied (h : ∀ o ∈ os, o.error? = none) :
    (ofOutcomes os).transformed + (ofOutcomes os).copied = os.length := by
  rw [List.length_eq_countP_add_countP FileOutcome.isTransformed]
  show _ + os.countP FileOutcome.isCopied = _
  congr 1
  apply List.countP_congr
  intro o ho
  cases o with
  | transformed out => simp [FileOutcome.isCopied, FileOutcome.isTransformed]
  | copied => simp [FileOutcome.isCopied, FileOutcome.isTransformed]
  | failed reported error => cases h _ ho

end Summary

theorem changed_iff (source path : String) (defs : Definitions) :
    (transform source path defs).changed = true ↔ (transform source path defs).code ≠ source := by
  unfold transform
  dsimp only
  rw [bne_iff_ne]

/-- A file changes if it is selected and holds a text that its transformation differs from. -/
theorem FileTree.isChanged_outcomeAt_iff (t : FileTree) (T : Transformer) (p : Place) :
    (t.outcomeAt T p).isChanged = true ↔ ∃ bytes text, t.get? p = some (.file bytes) ∧
      String.fromUTF8? bytes = some text ∧ T.selects p.text = true ∧
      (transform text p.text T.config.definitions).code ≠ text := by
  unfold FileTree.outcomeAt Transformer.outcome
  cases hp : t.get? p with
  | none => exact ⟨nofun, nofun⟩
  | some entry =>
    cases entry with
    | directory => exact ⟨nofun, nofun⟩
    | file bytes =>
      dsimp only
      by_cases hselects : T.selects p.text = true
      · rw [if_pos hselects]
        cases htext : String.fromUTF8? bytes with
        | none =>
          refine ⟨nofun, ?_⟩
          rintro ⟨bytes', text, hbytes, htext', -⟩
          obtain rfl := Entry.file.inj (Option.some.inj hbytes)
          rw [htext] at htext'
          cases htext'
        | some text =>
          dsimp only [FileOutcome.isChanged]
          rw [changed_iff]
          constructor
          · intro hne
            exact ⟨bytes, text, rfl, htext, hselects, hne⟩
          · rintro ⟨bytes', text', hbytes, htext', -, hne⟩
            obtain rfl := Entry.file.inj (Option.some.inj hbytes)
            obtain rfl := Option.some.inj (htext.symm.trans htext')
            exact hne
      · rw [if_neg hselects]
        refine ⟨nofun, ?_⟩
        rintro ⟨-, -, -, -, hselects', -⟩
        exact absurd hselects' hselects

/-- Making directories makes no source. -/
theorem FileTree.Grows.isSource_iff (h : t.Grows t₁) :
    t₁.IsSource src out way ↔ t.IsSource src out way := by
  constructor
  · rintro ⟨⟨bytes, hfile⟩, houtside⟩
    exact ⟨⟨bytes, h.file_iff.mp hfile⟩, houtside⟩
  · rintro ⟨⟨bytes, hfile⟩, houtside⟩
    exact ⟨⟨bytes, h.file_iff.mpr hfile⟩, houtside⟩

/-! ### The summary of a walk -/

section Counts

variable (hnodup : ways.Nodup) (hmem : ∀ way, way ∈ ways ↔ t.IsSource src out way)

include hnodup hmem

/-- As many files are transformed or copied as there are sources. -/
theorem FileTree.encard_sources (T : Transformer) :
    Set.encard {way | t.IsSource src out way} =
      ↑((Summary.ofOutcomes (ways.map fun way => t.outcomeAt T (src ++ way))).transformed +
        (Summary.ofOutcomes (ways.map fun way => t.outcomeAt T (src ++ way))).copied) := by
  have hok : ∀ o ∈ ways.map fun way => t.outcomeAt T (src ++ way), o.error? = none := by
    intro o ho
    obtain ⟨way, -, rfl⟩ := List.mem_map.mp ho
    exact t.error?_outcomeAt T (src ++ way)
  rw [Summary.transformed_add_copied hok, List.length_map, ← encard_of_nodup hnodup]
  congr 1
  ext way
  exact (hmem way).symm

/-- As many files change as there are sources with a text that its transformation differs from. -/
theorem FileTree.encard_changed (T : Transformer) :
    Set.encard {way | t.IsSource src out way ∧ ∃ bytes text,
      t.get? (src ++ way) = some (.file bytes) ∧ String.fromUTF8? bytes = some text ∧
      T.selects (Place.text (src ++ way)) = true ∧
      (transform text (Place.text (src ++ way)) T.config.definitions).code ≠ text} =
    ↑(Summary.ofOutcomes (ways.map fun way => t.outcomeAt T (src ++ way))).changed := by
  have hcount : (Summary.ofOutcomes (ways.map fun way => t.outcomeAt T (src ++ way))).changed =
      (ways.filter fun way => (t.outcomeAt T (src ++ way)).isChanged).length := by
    show List.countP _ (List.map _ _) = _
    rw [List.countP_map, List.countP_eq_length_filter]
    rfl
  rw [hcount, ← encard_of_nodup (hnodup.filter _)]
  congr 1
  ext way
  show _ ↔ way ∈ List.filter _ _
  rw [List.mem_filter, hmem, t.isChanged_outcomeAt_iff T (src ++ way)]
  exact Iff.rfl

end Counts

namespace Command

open FileTree

variable {c : Command} {env : List (String × String)} {source target : String}
variable {result : CommandResult}

/-- **The process command mirrors the tree.** Let it succeed, with a target that is not the source
and does not lie above it. Then the first walk has found the sources that are selected, and no other
file. By the second one every source has been emitted at its way below the target, transformed if it
is selected and holds text, and as it is otherwise. Every other file is as before, and no other file
is new. As many files were transformed or copied as there are sources, and as many changed as have
another text then.

Directories are listed while files are written into the tree, in any order, which may depend on all
that stands in it. This makes no difference: with any other order the command succeeds too, with the
same summary, with the same reports up to their order, and with the same at every place. -/
theorem process_mirrors (ht : t.WellFormed) (hlisting : ∀ u p, (listing u p).Perm (u.namesIn p))
    (hc : c.action = .process source target) (hsource : t.Finds source src)
    (htarget : t.FindsMade target out) (hapart : ¬ out <+: src)
    (hrun : (c.perform (hostListing listing) env).run t = (result, t'))
    (hok : result.failure = none) :
    ∃ t₁ T selected summary, t.createDirs target = .ok t₁ ∧
      (transformer FileTree.host (c.settingsAt env src)).run.run t₁ = (.ok T, t₁) ∧
      (T.discover (hostListing listing) src.text (some out.text)).run t₁ = (.ok selected, t₁) ∧
      (∀ path, path ∈ selected ↔ ∃ way, t.IsSource src out way ∧ path = Place.text (src ++ way) ∧
        T.selects path = true) ∧
      (∀ way bytes, t.get? (src ++ way) = some (.file bytes) → ¬ out <+: src ++ way →
        t'.get? (out ++ way) = some (.file (T.emitted (Place.text (src ++ way)) bytes))) ∧
      (∀ p bytes, (∀ way, t.IsSource src out way → p ≠ out ++ way) →
        (t'.get? p = some (.file bytes) ↔ t.get? p = some (.file bytes))) ∧
      result.summary = some summary ∧
      Set.encard {way | t.IsSource src out way} = ↑(summary.transformed + summary.copied) ∧
      Set.encard {way | t.IsSource src out way ∧ ∃ bytes text,
        t.get? (src ++ way) = some (.file bytes) ∧ String.fromUTF8? bytes = some text ∧
        T.selects (Place.text (src ++ way)) = true ∧
        (transform text (Place.text (src ++ way)) T.config.definitions).code ≠ text} =
          ↑summary.changed ∧
      ∀ listing' : FileTree → Place → List (String × EntryType),
        (∀ u p, (listing' u p).Perm (u.namesIn p)) →
        ∃ result' t'', (c.perform (hostListing listing') env).run t = (result', t'') ∧
          result'.failure = none ∧ result'.summary = result.summary ∧
          result'.reported.Perm result.reported ∧ ∀ p, t''.get? p = t'.get? p := by
  -- the steps before files are emitted
  obtain ⟨hfailed, -⟩ | ⟨src', out', t₁, T, selected, os, hreaches, hfound, hemission, rfl⟩ :=
    process_cases hc hrun
  · rw [hok] at hfailed
    cases hfailed
  obtain rfl := hsource.eq hreaches.found_source
  obtain ⟨t₁', hmade, hthere⟩ := htarget
  obtain rfl := Except.ok.inj (hmade.symm.trans hreaches.made)
  obtain rfl := hthere.eq hreaches.found_target
  have hgrows := grows_of_createDirs hmade
  have ht₁ : t₁'.WellFormed := ht.createDirs hmade
  have hsrc : src.Plain := ht.plain_of_finds hsource
  have hout : out.Plain := ht₁.plain_of_finds hthere
  obtain ⟨entry, hentry⟩ := hthere.get?_eq
  -- the first walk could list all directories, and so found the selected sources
  obtain ⟨hfind, hdirs⟩ := Transformer.nameable_of_discover ht₁ hsrc hout hapart hlisting hfound
  obtain ⟨selected', hfound', hlists⟩ :=
    Transformer.discover_of_nameable ht₁ hsrc hout hapart hlisting T hfind hdirs
  obtain rfl := Except.ok.inj (Prod.mk.inj (hfound.symm.trans hfound')).1
  -- all sources are ready, and so they are emitted in this order and in every other one
  have hready : ∀ way, t₁'.IsSource src out way → t₁'.Ready src out way := fun way =>
    ready_of_emitTree ht₁ hout hentry hlists hsrc hapart hlisting hfind hdirs hemission
      (failure_emitResult_iff.mp hok)
  obtain ⟨ways, u, hnodup, hmem, hemission', hmirrored⟩ :=
    emitTree_of_ready ht₁ hout hentry hlists hsrc hapart hlisting hfind hdirs hready
  obtain ⟨rfl, rfl⟩ := Prod.mk.inj (hemission.symm.trans hemission')
  refine ⟨t₁', T, selected, _, hmade, ?_, hfound, ?_, ?_, ?_, summary_emitResult hok, ?_, ?_, ?_⟩
  · rw [← hostListing_namesIn, run_transformer, hreaches.built]
  · simp only [← hgrows.isSource_iff]
    exact hlists
  · intro way bytes hfile houtside
    exact hmirrored.emitted way ⟨⟨bytes, hgrows.kept hfile⟩, houtside⟩ bytes (hgrows.kept hfile)
  · intro p bytes hp
    refine (hmirrored.file_iff fun way hway => ?_).trans hgrows.file_iff
    exact hp way (hgrows.isSource_iff.mp hway)
  · simp only [← hgrows.isSource_iff]
    exact encard_sources hnodup hmem T
  · simp only [← hgrows.isSource_iff, ← hgrows.file_iff]
    exact encard_changed hnodup hmem T
  · intro listing' hlisting'
    obtain ⟨selected', hfound', hlists'⟩ :=
      Transformer.discover_of_nameable ht₁ hsrc hout hapart hlisting' T hfind hdirs
    obtain ⟨ways', t'', hnodup', hmem', hemission'', hmirrored'⟩ :=
      emitTree_of_ready ht₁ hout hentry hlists' hsrc hapart hlisting' hfind hdirs hready
    have hperm : (ways'.map fun way => t₁'.outcomeAt T (src ++ way)).Perm
        (ways.map fun way => t₁'.outcomeAt T (src ++ way)) := by
      refine List.Perm.map _ ((List.perm_ext_iff_of_nodup hnodup' hnodup).mpr fun way => ?_)
      rw [hmem', hmem]
    have hok' :
        (emitResult (ways'.map fun way => t₁'.outcomeAt T (src ++ way))).failure = none := by
      rw [failure_emitResult_iff] at hok ⊢
      exact fun o ho => hok o (hperm.mem_iff.mp ho)
    refine ⟨_, t'', run_perform_of_reaches hc hreaches hfound' hemission'', hok', ?_, ?_, ?_⟩
    · rw [summary_emitResult hok, summary_emitResult hok', Summary.ofOutcomes_perm hperm]
    · exact hperm.flatMap_right FileOutcome.reported
    · exact hmirrored'.get?_eq hmirrored

/-- A source with a text that changes, a file that holds no text, an excluded file and a directory,
and a target inside it with a file of an earlier run. -/
def nestedTree : FileTree := .ofEntries [
  (["s"], .directory),
  (["s", "a.js"], .file "// #ifdef NO\nx\n// #endif\ny\n".toUTF8),
  (["s", "b"], .file ⟨#[255]⟩),
  (["s", "c.js"], .file "// #ifdef NO\n".toUTF8),
  (["s", "d"], .directory),
  (["s", "d", "e.js"], .file "w".toUTF8),
  (["s", "o"], .directory),
  (["s", "o", "old"], .file "z".toUTF8)]

/-- The command that emits the source into the target inside it. -/
def nestedCommand : Command where
  settings := { excluded := ["c.*"] }
  strict := false
  action := .process "s" "s/o"

/-- The names in a place, the last one first. -/
def backwards (t : FileTree) (p : Place) : List (String × EntryType) :=
  (t.namesIn p).reverse

/-- The theorem at a target inside its source, with walks that list directories backwards. -/
theorem process_mirrors_nested :
    ∃ (result : CommandResult) (t' : FileTree) (T : Transformer) (selected : List String),
      (nestedCommand.perform (hostListing backwards) []).run nestedTree = (result, t') ∧
      result.failure = none ∧ result.summary = some ⟨2, 1, 2, 0⟩ ∧
      [["s", "o", "a.js"], ["s", "o", "b"], ["s", "o", "c.js"], ["s", "o", "d", "e.js"],
        ["s", "o", "old"], ["s", "o", "o", "old"]].map t'.get? =
        [some (.file "y\n".toUTF8), some (.file ⟨#[255]⟩), some (.file "// #ifdef NO\n".toUTF8),
          some (.file "w".toUTF8), some (.file "z".toUTF8), none] ∧
      t'.get? ["s", "o", "b"] = some (.file (T.emitted "/s/b" ⟨#[255]⟩)) ∧
      ("/s/c.js" ∈ selected ↔ T.selects "/s/c.js" = true) ∧
      Set.encard {way | nestedTree.IsSource ["s"] ["s", "o"] way} = 4 ∧
      ∃ result' t'', (nestedCommand.perform FileTree.host []).run nestedTree = (result', t'') ∧
        result'.summary = result.summary ∧ ∀ p, t''.get? p = t'.get? p := by
  rcases hrun : (nestedCommand.perform (hostListing backwards) []).run nestedTree with ⟨result, t'⟩
  have hok : ((nestedCommand.perform (hostListing backwards) []).run nestedTree).1.failure.isNone =
      true := by decide +kernel
  have hsummary : ((nestedCommand.perform (hostListing backwards) []).run nestedTree).1.summary =
      some ⟨2, 1, 2, 0⟩ := by decide +kernel
  have hfiles : [["s", "o", "a.js"], ["s", "o", "b"], ["s", "o", "c.js"], ["s", "o", "d", "e.js"],
      ["s", "o", "old"], ["s", "o", "o", "old"]].map
      ((nestedCommand.perform (hostListing backwards) []).run nestedTree).2.get? =
        [some (.file "y\n".toUTF8), some (.file ⟨#[255]⟩), some (.file "// #ifdef NO\n".toUTF8),
          some (.file "w".toUTF8), some (.file "z".toUTF8), none] := by
    decide +kernel
  rw [hrun] at hok hsummary hfiles
  have hsource : nestedTree.Finds "s" ["s"] := by decide +kernel
  have htarget : nestedTree.FindsMade "s/o" ["s", "o"] := by decide +kernel
  obtain ⟨t₁, T, selected, summary, -, -, -, hselected, hemitted, -, hsummary', hcount, -, hany⟩ :=
    process_mirrors (by decide +kernel) (fun u p => List.reverse_perm (u.namesIn p)) rfl hsource
      htarget (by decide) hrun (Option.isNone_iff_eq_none.mp hok)
  obtain ⟨result', t'', hrun', -, hsame, -, heverywhere⟩ := hany namesIn fun _ _ => .refl _
  refine ⟨result, t', T, selected, rfl, Option.isNone_iff_eq_none.mp hok, hsummary, hfiles, ?_, ?_,
    ?_, result', t'', hrun', hsame, heverywhere⟩
  · exact hemitted ["b"] ⟨#[255]⟩ (by decide +kernel) (by decide)
  · rw [hselected]
    have hfile : nestedTree.get? (["s"] ++ ["c.js"]) = some (.file "// #ifdef NO\n".toUTF8) := by
      decide +kernel
    exact ⟨fun ⟨_, _, _, h⟩ => h, fun h => ⟨["c.js"], ⟨⟨_, hfile⟩, by decide⟩, rfl, h⟩⟩
  · obtain rfl := Option.some.inj (hsummary.symm.trans hsummary')
    exact hcount

end Command

end CondRegions
