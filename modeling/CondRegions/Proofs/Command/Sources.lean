import CondRegions.Proofs.Command.Process

/-!
# What the process command leaves alone

A file can only be lost if it is the target of a file that the walk comes to. No target is a source
if the two directories lie apart, or the target lies in the source. If the source lies in the
target, at `mid`, then the file at `mid ++ way` below the source has the target `way` below the
source, so that a source is overwritten if names repeat (`Command.process_overwrites`).

Then the walk may also come to files that were written before, since it lists directories as it goes
on: the file at `mid ++ mid ++ way` is written at `mid ++ way` first, and from there at `way`. What
is never written is a file whose way ends like that of no file below `mid` (`Command.SafeSource`).
Such a source is kept (`Command.process_keeps_sources`).
-/

namespace CondRegions.Command

open FileTree

variable {src out way : Place} {t t' u u' : FileTree}
variable {listing : FileTree → Place → List (String × EntryType)} {T : Transformer}
variable {selected : List String} {o : FileOutcome}
variable {c : Command} {env : List (String × String)} {source target : String}
variable {result : CommandResult} {bytes : ByteArray}

/-- Where a source can be a target: the source directory lies in the target, and the names from one
to the other stand in front of the same way. -/
theorem exists_mid_of_eq_target {way' : Place} (hdiffer : src ≠ out)
    (hinside : src <+: out → ¬ out <+: src ++ way) (heq : src ++ way = out ++ way') :
    ∃ mid : Place, mid ≠ [] ∧ src = out ++ mid ∧ way' = mid ++ way := by
  have hout : out <+: src ++ way := by
    rw [heq]
    exact List.prefix_append out way'
  have hsrc : src <+: src ++ way := List.prefix_append src way
  -- both directories lie on the way to the file, so one of them lies in the other
  rcases List.prefix_or_prefix_of_prefix hsrc hout with h | h
  · exact absurd hout (hinside h)
  · obtain ⟨mid, rfl⟩ := h
    refine ⟨mid, ?_, rfl, ?_⟩
    · rintro rfl
      exact hdiffer (List.append_nil out)
    · rw [List.append_assoc] at heq
      exact (List.append_cancel_left heq).symm

/-- **The invariant of a run.** The source has its bytes, and no file lies below it at `mid` and
behind it at a way that ends like that of the source. -/
structure SafeSource (src out way : Place) (bytes : ByteArray) (u : FileTree) : Prop where
  wellFormed : u.WellFormed
  file : u.get? (src ++ way) = some (.file bytes)
  below : ∀ mid, src = out ++ mid → mid ≠ [] → ∀ rest, way <:+ rest → ∀ bytes',
    u.get? (src ++ mid ++ rest) ≠ some (.file bytes')

/-- Only directories are made, so that no file is lost or new. -/
theorem SafeSource.grows (h : SafeSource src out way bytes u) (hgrows : u.Grows u')
    (hu' : u'.WellFormed) : SafeSource src out way bytes u' where
  wellFormed := hu'
  file := hgrows.kept h.file
  below mid hsrc hmid rest hrest bytes' hfile :=
    h.below mid hsrc hmid rest hrest bytes' (hgrows.file_iff.mp hfile)

/-- **One file.** Whatever file is emitted, the source is safe afterwards. -/
theorem SafeSource.emitFile (hsrc : src.Plain) (hout : out.Plain) (hdiffer : src ≠ out)
    (hinside : src <+: out → ¬ out <+: src ++ way) (h : SafeSource src out way bytes u)
    {way' : Place} (hway' : way'.Plain)
    (hrun : (emitFile FileTree.host T selected src out way').run u = (o, u')) :
    SafeSource src out way bytes u' := by
  have hhere : Place.Plain (src ++ way') := Place.plain_append.mpr ⟨hsrc, hway'⟩
  have htarget : Place.Plain (out ++ way') := Place.plain_append.mpr ⟨hout, hway'⟩
  refine ⟨h.wellFormed.emitFile htarget hrun, ?_, ?_⟩
  · -- there is no file that would be written over the source
    refine (emitFile_frame hhere htarget hrun fun heq => ?_).mpr h.file
    obtain ⟨mid, hmid, hsrc', rfl⟩ := exists_mid_of_eq_target hdiffer hinside heq
    rw [← List.append_assoc]
    exact h.below mid hsrc' hmid way (List.suffix_refl way)
  · -- and none that would be written where such a file could come from
    intro mid hsrc' hmid rest hrest bytes' hnew
    refine h.below mid hsrc' hmid rest hrest bytes'
      ((emitFile_frame hhere htarget hrun fun heq => ?_).mp hnew)
    have hway'' : way' = mid ++ (mid ++ rest) := by
      rw [hsrc', List.append_assoc, List.append_assoc] at heq
      exact (List.append_cancel_left heq).symm
    rw [hway'', ← List.append_assoc]
    exact h.below mid hsrc' hmid (mid ++ rest) (hrest.trans (List.suffix_append mid rest))

/-- **The process command keeps its sources.** Whether or not it succeeds, a file below the source
that does not lie in a target inside the source has its bytes afterwards, unless the source lies in
the target, at `mid`, and below the source a file lies at `mid` and behind it at a way that ends
like that of the first.

Of what a directory lists no more is used than that names are names that a file can have. -/
theorem process_keeps_sources (ht : t.WellFormed)
    (hlisting : ∀ u p, u.WellFormed → ∀ e ∈ listing u p, IsFileName e.1)
    (hc : c.action = .process source target) (hsource : t.Finds source src)
    (hrun : (c.perform (hostListing listing) env).run t = (result, t'))
    (hfile : t.get? (src ++ way) = some (.file bytes))
    (hinside : ∀ out, t.FindsMade target out → src <+: out → src ≠ out → ¬ out <+: src ++ way)
    (hbelow : ∀ out mid, t.FindsMade target out → src = out ++ mid → mid ≠ [] →
      ∀ rest, way <:+ rest → ∀ bytes', t.get? (src ++ mid ++ rest) ≠ some (.file bytes')) :
    t'.get? (src ++ way) = some (.file bytes) := by
  obtain ⟨-, rfl | hmade⟩ | ⟨src', out, t₁, T, selected, os, hreaches, -, hemission, -⟩ :=
    process_cases hc hrun
  · exact hfile
  · exact (grows_of_createDirs hmade).kept hfile
  · obtain rfl := hsource.eq hreaches.found_source
    have ht₁ : t₁.WellFormed := ht.createDirs hreaches.made
    have htarget : t.FindsMade target out := ⟨t₁, hreaches.made, hreaches.found_target⟩
    have hstart : SafeSource src out way bytes t₁ :=
      SafeSource.grows ⟨ht, hfile, fun mid => hbelow out mid htarget⟩
        (grows_of_createDirs hreaches.made) ht₁
    -- every file keeps the source safe, and so the walk does
    have hkept := walk_keeps (P := SafeSource src out way bytes) (Q := Place.Plain)
      (v := .emitting (hostListing listing) T selected src out)
      (fun u p way' hu hway' e he => Place.plain_append.mpr
        ⟨hway', Place.plain_cons.mpr ⟨hlisting u p hu.wellFormed e he, Place.plain_nil⟩⟩)
      (fun u way' hu hway' => hu.emitFile (ht.plain_of_finds hsource)
        (ht₁.plain_of_finds hreaches.found_target) hreaches.differ
        (fun hpre => hinside out htarget hpre hreaches.differ) hway' rfl)
      src.text Place.plain_nil hstart
    have hend : ((emitTree (hostListing listing) T selected src out).run t₁).2 = t' := by
      rw [hemission]
    rw [← hend]
    exact hkept.file

/-- A source inside its target. Names repeat, but not all names of a way. -/
def apartTree : FileTree := .ofEntries [
  (["a"], .directory),
  (["a", "b"], .directory),
  (["a", "b", "x"], .file "1".toUTF8),
  (["a", "b", "b"], .directory),
  (["a", "b", "b", "y"], .file "2".toUTF8)]

/-- The command that emits a source into the directory above it. -/
def upwards : Command where
  settings := { defines := ["T"] }
  strict := false
  action := .process "a/b" "a"

/-- The theorem at a source that lies in its target. -/
theorem process_keeps_sources_apart :
    ∃ result t', (upwards.perform (hostListing namesIn) []).run apartTree = (result, t') ∧
      t'.get? ["a", "b", "x"] = some (.file "1".toUTF8) := by
  rcases hrun : (upwards.perform (hostListing namesIn) []).run apartTree with ⟨result, t'⟩
  have ht : apartTree.WellFormed := by decide +kernel
  have hsource : apartTree.Finds "a/b" ["a", "b"] := by decide +kernel
  have htarget : apartTree.FindsMade "a" ["a"] := by decide +kernel
  have hfile : apartTree.get? (["a", "b"] ++ ["x"]) = some (.file "1".toUTF8) := by decide +kernel
  have hothers : ∀ e ∈ apartTree.entries.entries, ["a", "b", "b"] <+: e.1 → ["x"] <:+ e.1 →
      e.2 = .directory := by decide +kernel
  refine ⟨result, t', rfl, process_keeps_sources ht
    (fun _ _ hu _ he => hu.isFileName_of_mem he) rfl hsource hrun hfile ?_ ?_⟩
  · -- the target does not lie in the source
    intro out hout hpre
    rw [hout.eq htarget] at hpre
    exact absurd hpre (by decide)
  · intro out mid hout hsrc _ rest hrest bytes hbelow
    rw [hout.eq htarget] at hsrc
    obtain rfl : mid = ["b"] := (List.cons.inj hsrc).2.symm
    -- the only file there has another name
    have hdir := hothers _ (mem_entries_of_get? (by simp) hbelow) (List.prefix_append _ rest)
      (hrest.trans (List.suffix_append _ rest))
    cases hdir

/-- A source inside its target, with a file at the names from the one to the other. -/
def overlapTree : FileTree := .ofEntries [
  (["a"], .directory),
  (["a", "b"], .directory),
  (["a", "b", "x.js"], .file "// #ifdef V\nzzz\n// #endif\n".toUTF8),
  (["a", "b", "b"], .directory),
  (["a", "b", "b", "x.js"],
    .file "/* #ifdef T */// #ifdef U\nfoo\n/* #endif */// #endif\n".toUTF8)]

/-- Without the condition on names that repeat a source is overwritten, by a command that
succeeds. -/
theorem process_overwrites :
    ∃ result t', (upwards.perform FileTree.host []).run overlapTree = (result, t') ∧
      result.failure = none ∧
      overlapTree.get? ["a", "b", "x.js"] = some (.file "// #ifdef V\nzzz\n// #endif\n".toUTF8) ∧
      t'.get? ["a", "b", "x.js"] = some (.file "// #ifdef U\nfoo\n// #endif\n".toUTF8) := by
  have hok : ((upwards.perform FileTree.host []).run overlapTree).1.failure.isNone = true := by
    decide +kernel
  exact ⟨_, _, rfl, Option.isNone_iff_eq_none.mp hok, by decide +kernel, by decide +kernel⟩

-- No file lies at `b/c/x` below the source at first. It is written there from `b/b/c/x`, and the
-- walk comes to it because `b/c` is listed only then; so it is not enough to ask for no file at
-- `mid ++ way`.
example :
    let t := FileTree.ofEntries [(["a"], .directory), (["a", "b"], .directory),
      (["a", "b", "c"], .directory), (["a", "b", "c", "x"], .file "1".toUTF8),
      (["a", "b", "b"], .directory), (["a", "b", "b", "c"], .directory),
      (["a", "b", "b", "b"], .directory), (["a", "b", "b", "b", "c"], .directory),
      (["a", "b", "b", "b", "c", "x"], .file "2".toUTF8)]
    let up : Command := { settings := {}, strict := false, action := .process "a/b" "a" }
    t.get? ["a", "b", "b", "c", "x"] = none ∧
      ((up.perform FileTree.host []).run t).2.get? ["a", "b", "c", "x"] =
        some (.file "2".toUTF8) := by
  decide +kernel

end CondRegions.Command
