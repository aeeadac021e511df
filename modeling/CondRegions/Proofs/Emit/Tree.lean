import CondRegions.Proofs.Emit.File
import CondRegions.Proofs.Selection.Discovery

/-!
# Emitting all files

The files are emitted while a walk comes to them, into the tree that it goes through. A source is a
file that lies below the source directory and not in the target directory (`FileTree.IsSource`). No
target is a source then, and no target lies above another one, so that what is emitted for one file
depends neither on the files emitted before it nor on their order.

The invariant of a run is that the files emitted so far have their bytes, with directories above
them, and that everything else is as it was at the start (`FileTree.Mirrored`). It leaves alone what
lies outside the target, so that the walk comes to the sources and to nothing else
(`steady_emitting`).

* `FileTree.Mirrored.ready_iff`, `FileTree.Mirrored.step` — one more file in the tree;
* `emitFile_of_mirrored`, `ready_of_mirrored` — the emission of one more file;
* `emitTree_of_ready`, `ready_of_emitTree` — a walk.
-/

namespace CondRegions

variable {listing : FileTree → Place → List (String × EntryType)}
variable {T : Transformer} {selected : List String} {src out way p : Place} {ways : List Place}
variable {t t' u u' u₁ : FileTree} {o : FileOutcome} {os : List FileOutcome} {bytes : ByteArray}
variable {done : Set Place}

namespace FileTree

/-! ### The invariant -/

/-- **The invariant of a run.** `u` is `t` with the files at the ways in `done` emitted. -/
structure Mirrored (t : FileTree) (T : Transformer) (src out : Place) (done : Set Place)
    (u : FileTree) : Prop where
  wellFormed : u.WellFormed
  source : ∀ way ∈ done, t.IsSource src out way
  ready : ∀ way ∈ done, t.Ready src out way
  emitted : ∀ way ∈ done, ∀ bytes, t.get? (src ++ way) = some (.file bytes) →
    u.get? (out ++ way) = some (.file (T.emitted (Place.text (src ++ way)) bytes))
  above : ∀ way ∈ done, ∀ p : Place, p.Above (out ++ way) → u.get? p = some .directory
  elsewhere : ∀ p, (∀ way ∈ done, ¬ p <+: out ++ way) → u.get? p = t.get? p

namespace Mirrored

/-- Nothing is emitted at the start. -/
theorem initial (ht : t.WellFormed) : t.Mirrored T src out ∅ t where
  wellFormed := ht
  source := nofun
  ready := nofun
  emitted := nofun
  above := nofun
  elsewhere _ _ := rfl

/-- Files that are no targets are as they were at the start. A place above a target is a directory
then, and was no file before. -/
theorem file_iff (h : t.Mirrored T src out done u) (hp : ∀ way ∈ done, p ≠ out ++ way) :
    u.get? p = some (.file bytes) ↔ t.get? p = some (.file bytes) := by
  by_cases habove : ∃ way ∈ done, p <+: out ++ way
  · obtain ⟨way, hway, hpre⟩ := habove
    have hp' : p.Above (out ++ way) := ⟨hpre, hp way hway⟩
    rw [h.above way hway p hp']
    exact ⟨nofun, fun hfile => absurd hfile ((h.ready way hway).free_above p hp' bytes)⟩
  · rw [h.elsewhere p (fun way hway hpre => habove ⟨way, hway, hpre⟩)]

/-- A source is there to be read at any time. -/
theorem source_iff (h : t.Mirrored T src out done u) (hway : t.IsSource src out way) :
    u.get? (src ++ way) = some (.file bytes) ↔ t.get? (src ++ way) = some (.file bytes) :=
  h.file_iff fun way' _ => hway.ne_target way'

/-- **One more file.** Whether a source is ready does not depend on the files emitted before it. -/
theorem ready_iff (ht : t.WellFormed) (h : t.Mirrored T src out done u)
    (hway : t.IsSource src out way) (hnew : way ∉ done) :
    u.Ready src out way ↔ t.Ready src out way := by
  -- the places above its target: no other target is among them
  have habove : ∀ r : Place, r.Above (out ++ way) → ∀ bytes,
      (u.get? r = some (.file bytes) ↔ t.get? r = some (.file bytes)) := by
    intro r hr bytes
    apply h.file_iff
    rintro way' hway' rfl
    obtain ⟨hpre, hne⟩ := (Place.above_append_iff out).mp hr
    exact hne ((h.source way' hway').eq_of_isPrefix ht hway hpre)
  -- its target: it does not lie above another one
  have htarget : u.get? (out ++ way) = t.get? (out ++ way) := by
    apply h.elsewhere
    intro way' hway' hpre
    rw [List.prefix_append_right_inj] at hpre
    rw [hway.eq_of_isPrefix ht (h.source way' hway') hpre] at hnew
    exact hnew hway'
  constructor
  · intro hready
    refine ⟨hready.source, hready.target, hready.dir, ?_, fun r hr bytes => ?_, ?_⟩
    · exact hway.file
    · rw [Ne, ← habove r hr bytes]
      exact hready.free_above r hr bytes
    · rw [← htarget]
      exact hready.free
  · intro hready
    refine ⟨hready.source, hready.target, hready.dir, ?_, fun r hr bytes => ?_, ?_⟩
    · obtain ⟨bytes, hbytes⟩ := hway.file
      exact ⟨bytes, (h.source_iff hway).mpr hbytes⟩
    · rw [Ne, habove r hr bytes]
      exact hready.free_above r hr bytes
    · rw [htarget]
      exact hready.free

/-- **One more file.** The invariant holds with it. -/
theorem step (ht : t.WellFormed) (h : t.Mirrored T src out done u)
    (hway : t.IsSource src out way) (hready : t.Ready src out way)
    (hfile : t.get? (src ++ way) = some (.file bytes))
    (hgains : u.Gains u' (out ++ way) (T.emitted (Place.text (src ++ way)) bytes)) :
    t.Mirrored T src out (insert way done) u' where
  wellFormed := hgains.wellFormed
  source way' hway' := by
    rcases Set.mem_insert_iff.mp hway' with rfl | hdone
    · exact hway
    · exact h.source way' hdone
  ready way' hway' := by
    rcases Set.mem_insert_iff.mp hway' with rfl | hdone
    · exact hready
    · exact h.ready way' hdone
  emitted way' hway' content hcontent := by
    rw [hgains.get?_eq]
    by_cases heq : way' = way
    · subst heq
      rw [hfile] at hcontent
      obtain rfl := Entry.file.inj (Option.some.inj hcontent)
      rw [if_pos rfl]
    · have hdone : way' ∈ done := Set.mem_of_mem_insert_of_ne hway' heq
      rw [if_neg (fun h' => heq (List.append_cancel_left h')), if_neg]
      · exact h.emitted way' hdone content hcontent
      · -- an old target does not lie above the new one
        intro hpre
        rw [List.prefix_append_right_inj] at hpre
        exact heq ((h.source way' hdone).eq_of_isPrefix ht hway hpre)
  above way' hway' p hp := by
    rw [hgains.get?_eq]
    by_cases heq : way' = way
    · subst heq
      rw [if_neg hp.2, if_pos hp.1]
    · have hdone : way' ∈ done := Set.mem_of_mem_insert_of_ne hway' heq
      rw [if_neg]
      · split
        · rfl
        · exact h.above way' hdone p hp
      · -- the new target does not lie above an old one
        rintro rfl
        obtain ⟨hpre, hne⟩ := (Place.above_append_iff out).mp hp
        exact hne (hway.eq_of_isPrefix ht (h.source way' hdone) hpre)
  elsewhere p hp := by
    have hnew : ¬ p <+: out ++ way := hp way (Set.mem_insert way done)
    have hne : p ≠ out ++ way := by
      rintro rfl
      exact hnew (List.prefix_refl _)
    rw [hgains.get?_eq, if_neg hne, if_neg hnew]
    exact h.elsewhere p fun way' hway' => hp way' (Set.mem_insert_of_mem way hway')

/-- What lies outside the target is as it was at the start. Above the target there are directories,
since it exists. -/
theorem get?_outside (ht : t.WellFormed) {entry : Entry} (hthere : t.get? out = some entry)
    (h : t.Mirrored T src out done u) (hp : ¬ out <+: p) : u.get? p = t.get? p := by
  by_cases hon : ∃ way ∈ done, p <+: out ++ way
  · obtain ⟨way, hway, hpre⟩ := hon
    have hpre' : p <+: out :=
      (List.prefix_or_prefix_of_prefix hpre (List.prefix_append out way)).resolve_right hp
    have hne : p ≠ out := by
      rintro rfl
      exact hp (List.prefix_refl p)
    have hne' : p ≠ out ++ way := by
      rintro rfl
      exact hp (List.prefix_append out way)
    rw [h.above way hway p ⟨hpre, hne'⟩, ht.above hthere ⟨hpre', hne⟩]
  · exact h.elsewhere p fun way hway hpre => hon ⟨way, hway, hpre⟩

/-- The invariant says what stands everywhere. -/
theorem get?_eq (h : t.Mirrored T src out done u) (h' : t.Mirrored T src out done u') (p : Place) :
    u.get? p = u'.get? p := by
  by_cases hon : ∃ way ∈ done, p <+: out ++ way
  · obtain ⟨way, hway, hpre⟩ := hon
    rcases Place.above_of_isPrefix hpre with rfl | habove
    · obtain ⟨bytes, hbytes⟩ := (h.source way hway).file
      rw [h.emitted way hway bytes hbytes, h'.emitted way hway bytes hbytes]
    · rw [h.above way hway p habove, h'.above way hway p habove]
  · have hoff : ∀ way ∈ done, ¬ p <+: out ++ way := fun way hway hpre => hon ⟨way, hway, hpre⟩
    rw [h.elsewhere p hoff, h'.elsewhere p hoff]

end Mirrored

/-! ### All files -/

/-- What becomes of the file at a place. -/
def outcomeAt (t : FileTree) (T : Transformer) (p : Place) : FileOutcome :=
  match t.get? p with
  | some (.file bytes) => T.outcome p.text bytes
  | _ => .copied

theorem outcomeAt_of_file (T : Transformer) (h : t.get? p = some (.file bytes)) :
    t.outcomeAt T p = T.outcome p.text bytes := by
  unfold outcomeAt
  rw [h]

theorem error?_outcomeAt (t : FileTree) (T : Transformer) (p : Place) :
    (t.outcomeAt T p).error? = none := by
  unfold outcomeAt
  split
  · exact T.error?_outcome _ _
  · rfl

end FileTree

open FileTree

theorem file_emitting (listing : FileTree → Place → List (String × EntryType)) (T : Transformer)
    (selected : List String) (src out way : Place) :
    (Visitor.emitting (hostListing listing) T selected src out).file way =
      emitFile FileTree.host T selected src out way := rfl

variable (ht : t.WellFormed) (hout : out.Plain)

include ht hout

/-- **One more file.** A source that is ready is emitted, whatever was emitted before. -/
theorem emitFile_of_mirrored (hlists : T.Lists t src out selected) (h : t.Mirrored T src out done u)
    (hway : t.IsSource src out way) (hnew : way ∉ done) (hready : t.Ready src out way) :
    ∃ u', (emitFile FileTree.host T selected src out way).run u = (t.outcomeAt T (src ++ way), u') ∧
      t.Mirrored T src out (insert way done) u' := by
  obtain ⟨bytes, hbytes⟩ := hway.file
  obtain ⟨u', hrun, hgains⟩ := emitFile_of_ready h.wellFormed (hway.plain_target ht hout)
    (T.any_same_eq_selects ht hlists hway) ((h.ready_iff ht hway hnew).mpr hready)
    ((h.source_iff hway).mpr hbytes)
  refine ⟨u', ?_, h.step ht hway hready hbytes hgains⟩
  rw [outcomeAt_of_file T hbytes, hrun]

/-- Only a source that is ready is emitted. -/
theorem ready_of_mirrored (h : t.Mirrored T src out done u) (hway : t.IsSource src out way)
    (hnew : way ∉ done) (hrun : (emitFile FileTree.host T selected src out way).run u = (o, u'))
    (ho : o.error? = none) : t.Ready src out way := by
  obtain ⟨bytes, hbytes⟩ := hway.file
  rw [← h.ready_iff ht hway hnew]
  exact ready_of_emitFile (ht.plain hbytes) (hway.plain_target ht hout) hrun ho

/-! ### A walk -/

variable {entry : Entry} (hthere : t.get? out = some entry) (hlists : T.Lists t src out selected)

include hthere hlists

/-- **Emitting is steady.** It changes nothing outside the target, as long as no file fails. -/
theorem steady_emitting (listing : FileTree → Place → List (String × EntryType)) :
    t.Steady src out (.emitting (hostListing listing) T selected src out)
      (t.Mirrored T src out) where
  skips_iff hp := Place.same_text_iff hp hout
  outside h hp := h.get?_outside ht hthere hp
  step {done u u' way o} h hway hnew hrun ho := by
    have hgoes : o.error? = none := Option.isSome_eq_false_iff.mp ho |> Option.isNone_iff_eq_none.mp
    rw [file_emitting] at hrun
    have hready := ready_of_mirrored ht hout h hway hnew hrun hgoes
    obtain ⟨u₁, hrun', hmirrored⟩ := emitFile_of_mirrored ht hout hlists h hway hnew hready
    obtain ⟨-, rfl⟩ := Prod.mk.inj (hrun.symm.trans hrun')
    exact hmirrored

omit hthere

/-- Sources that are ready are all emitted. -/
theorem run_visitAll_emitting (listing : FileTree → Place → List (String × EntryType))
    (h : t.Mirrored T src out done u) (hnodup : ways.Nodup)
    (hsource : ∀ way ∈ ways, t.IsSource src out way) (hnew : ∀ way ∈ ways, way ∉ done)
    (hready : ∀ way ∈ ways, t.Ready src out way) :
    (((Visitor.emitting (hostListing listing) T selected src out).visitAll ways).run u).1 =
      ways.map fun way => t.outcomeAt T (src ++ way) := by
  induction ways generalizing u done with
  | nil => rfl
  | cons way ways ih =>
    obtain ⟨hfirst, hsource⟩ := List.forall_mem_cons.mp hsource
    obtain ⟨hnewFirst, hnew⟩ := List.forall_mem_cons.mp hnew
    obtain ⟨hreadyFirst, hready⟩ := List.forall_mem_cons.mp hready
    obtain ⟨hother, hnodup⟩ := List.nodup_cons.mp hnodup
    obtain ⟨u₁, hone, hmirrored⟩ :=
      emitFile_of_mirrored ht hout hlists h hfirst hnewFirst hreadyFirst
    rw [← file_emitting listing] at hone
    rw [run_visitAll_cons hone, if_neg (by simp [Visitor.emitting, error?_outcomeAt]),
      List.map_cons, ih hmirrored hnodup hsource (not_mem_insert hother hnew) hready]

variable (hsrc : src.Plain) (hapart : ¬ out <+: src)
variable (hlisting : ∀ u p, (listing u p).Perm (u.namesIn p)) (hfind : t.Finds src.text src)
variable (hdirs : ∀ way, t.get? (src ++ way) = some .directory → ¬ out <+: src ++ way →
  Place.Nameable (src ++ way))

include hthere hsrc hapart hlisting hfind hdirs

/-- The walk comes to the sources, each of them once. -/
theorem run_emitTree :
    ∃ ways : List Place, ways.Nodup ∧ (∀ way, way ∈ ways ↔ t.IsSource src out way) ∧
    (emitTree (hostListing listing) T selected src out).run t =
      ((Visitor.emitting (hostListing listing) T selected src out).visitAll ways).run t :=
  (steady_emitting ht hout hthere hlists listing).walk ht hlisting hout hdirs hapart hfind hsrc
    (.initial ht)

/-- **Success.** If no file fails, all sources were ready. -/
theorem ready_of_emitTree
    (hrun : (emitTree (hostListing listing) T selected src out).run t = (os, t'))
    (hok : ∀ o ∈ os, o.error? = none) (hway : t.IsSource src out way) : t.Ready src out way := by
  obtain ⟨ways, hnodup, hmem, hwalk⟩ :=
    run_emitTree ht hout hthere hlists hsrc hapart hlisting hfind hdirs
  have hgoes : os.any (Visitor.emitting (hostListing listing) T selected src out).ends = false := by
    rw [List.any_eq_false]
    intro o ho
    rw [show Visitor.ends _ o = o.error?.isSome from rfl, hok o ho]
    exact nofun
  have hmirrored := (steady_emitting ht hout hthere hlists listing).visitAll (.initial ht) hnodup
    (fun way => (hmem way).mp) (fun _ _ => Set.notMem_empty _) (hwalk.symm.trans hrun) hgoes
  exact hmirrored.ready way (.inr ((hmem way).mpr hway))

/-- If all sources are ready they are emitted, whatever the order. -/
theorem emitTree_of_ready (hready : ∀ way, t.IsSource src out way → t.Ready src out way) :
    ∃ (ways : List Place) (t' : FileTree), ways.Nodup ∧
      (∀ way, way ∈ ways ↔ t.IsSource src out way) ∧
      (emitTree (hostListing listing) T selected src out).run t =
        (ways.map fun way => t.outcomeAt T (src ++ way), t') ∧
      t.Mirrored T src out {way | t.IsSource src out way} t' := by
  obtain ⟨ways, hnodup, hmem, hwalk⟩ :=
    run_emitTree ht hout hthere hlists hsrc hapart hlisting hfind hdirs
  have hsource : ∀ way ∈ ways, t.IsSource src out way := fun way => (hmem way).mp
  have hnew : ∀ way ∈ ways, way ∉ (∅ : Set Place) := fun _ _ => Set.notMem_empty _
  have houtcomes := run_visitAll_emitting ht hout hlists listing (.initial ht) hnodup hsource hnew
    fun way hway => hready way (hsource way hway)
  rcases hrun : ((Visitor.emitting (hostListing listing) T selected src out).visitAll ways).run t
    with ⟨os, t'⟩
  rw [hrun] at houtcomes
  obtain rfl : os = _ := houtcomes
  refine ⟨ways, t', hnodup, hmem, hwalk.trans hrun, ?_⟩
  have hgoes : (ways.map fun way => t.outcomeAt T (src ++ way)).any
      (Visitor.emitting (hostListing listing) T selected src out).ends = false := by
    simp [Visitor.emitting, error?_outcomeAt]
  have hmirrored := (steady_emitting ht hout hthere hlists listing).visitAll (.initial ht) hnodup
    hsource hnew hrun hgoes
  have hall : ∅ ∪ {way | way ∈ ways} = {way | t.IsSource src out way} := by
    ext way
    simp only [Set.empty_union, Set.mem_ofPred_eq, hmem]
  rw [← hall]
  exact hmirrored

end CondRegions
