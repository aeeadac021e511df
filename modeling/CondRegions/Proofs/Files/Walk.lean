import CondRegions.Proofs.Files.WellFormed
import Mathlib.Data.Set.Insert

/-!
# Walks through a tree

A directory lists what it holds in any order. `FileTree.hostListing listing` is a tree as a file
system whose directories are listed by `listing`; that of the tree itself is one of them.

What every visit keeps, a walk keeps (`FileTree.walkBelow_keeps`). This needs no more of a listing
than that it gives names that a file can have, and says nothing about which files are visited.

Which files these are is known if the visits are steady (`FileTree.Steady`): they leave alone what
lies outside the directory `out` that the walk passes over. A walk from `src` then comes to every
source once, that is to every file below `src` and outside `out` (`FileTree.IsSource`), although
directories are listed while the visits change the tree (`FileTree.Steady.walk`).

* `FileTree.Steady.visitAll` — what holds after some visits;
* `FileTree.Visits` — to visit the files of a set, each of them once;
* `FileTree.Steady.visits_inTurn`, `FileTree.Steady.visits_walkBelow` — one directory, and all below
  it.
-/

namespace CondRegions

variable {α β : Type}

/-- The visit of a file, as a part of a walk. -/
def Visitor.visit (v : Visitor (StateM FileTree) β) (way : Place) : StateM FileTree (List β) := do
  return [← v.file way]

/-- The visits of files, one after the other, up to one that ends them. -/
def Visitor.visitAll (v : Visitor (StateM FileTree) β) (ways : List Place) :
    StateM FileTree (List β) :=
  inTurn v.ends v.visit ways

namespace FileTree

variable {listing : FileTree → Place → List (String × EntryType)}
variable {t u u' : FileTree} {p src out way : Place}

/-- A tree as a file system that lists the names in a place in its own way. -/
def hostListing (listing : FileTree → Place → List (String × EntryType)) : Host (StateM FileTree) :=
  { FileTree.host with names := fun path => do return (← get).namesBy listing path }

theorem hostListing_namesIn : hostListing namesIn = FileTree.host := rfl

theorem run_names (listing : FileTree → Place → List (String × EntryType)) (path : String)
    (t : FileTree) : ((hostListing listing).names path).run t = (t.namesBy listing path, t) := rfl

theorem run_entryType (listing : FileTree → Place → List (String × EntryType)) (path : String)
    (t : FileTree) : ((hostListing listing).entryType path).run t =
      ((t.find path).map fun (_, entry) => entry.type, t) := rfl

theorem namesBy_eq_ok_iff {path : String} {names : List (String × EntryType)} :
    t.namesBy listing path = .ok names ↔
      ∃ p, t.find path = .ok (p, .directory) ∧ names = listing t p := by
  unfold namesBy
  cases t.find path with
  | error e => exact ⟨nofun, nofun⟩
  | ok found =>
    obtain ⟨p, entry⟩ := found
    cases entry with
    | file bytes =>
      refine ⟨nofun, ?_⟩
      rintro ⟨q, hq, -⟩
      cases hq
    | directory =>
      constructor
      · intro h
        exact ⟨p, rfl, (Except.ok.inj h).symm⟩
      · rintro ⟨q, hq, rfl⟩
        obtain ⟨rfl, -⟩ := Prod.mk.inj (Except.ok.inj hq)
        rfl

/-- **Listing.** By the path of a place the names there are listed, if it is a directory. -/
theorem namesBy_text_iff (hp : p.Plain) {names : List (String × EntryType)} :
    t.namesBy listing p.text = .ok names ↔ p.Nameable ∧
      (∀ r : Place, r.Above p → t.get? r = some .directory) ∧ t.get? p = some .directory ∧
      names = listing t p := by
  rw [namesBy_eq_ok_iff]
  constructor
  · rintro ⟨q, hq, rfl⟩
    obtain ⟨rfl, hnameable, habove, hdir⟩ := (find_text_iff hp).mp hq
    exact ⟨hnameable, habove, hdir, rfl⟩
  · rintro ⟨hnameable, habove, hdir, rfl⟩
    exact ⟨p, (find_text_iff hp).mpr ⟨rfl, hnameable, habove, hdir⟩, rfl⟩

/-! ### One step of a walk -/

theorem run_inTurn_cons {ends : β → Bool} {act : α → StateM FileTree (List β)} {a : α} {as : List α}
    {bs : List β} (h : (act a).run u = (bs, u')) :
    (inTurn ends act (a :: as)).run u =
      if bs.any ends then (bs, u')
      else (bs ++ ((inTurn ends act as).run u').1, ((inTurn ends act as).run u').2) := by
  rw [inTurn, run_bind_of_run h]
  split <;> rfl

section Step

variable {v : Visitor (StateM FileTree) β} {depth : Nat} {path : String} {type : EntryType}

theorem run_walkBelow_skip (listing : FileTree → Place → List (String × EntryType))
    (h : v.skips path = true) (type : EntryType) :
    ((hostListing listing).walkBelow v depth path way type).run u = ([], u) := by
  unfold Host.walkBelow
  rw [if_pos h]
  rfl

theorem run_walkBelow_file (listing : FileTree → Place → List (String × EntryType))
    (h : ¬ v.skips path = true) :
    ((hostListing listing).walkBelow v depth path way .file).run u =
      ([((v.file way).run u).1], ((v.file way).run u).2) := by
  unfold Host.walkBelow
  rw [if_neg h]
  rfl

/-- A directory is listed when the walk comes to it. -/
theorem run_walkBelow_directory (listing : FileTree → Place → List (String × EntryType))
    (h : ¬ v.skips path = true) :
    ((hostListing listing).walkBelow v (depth + 1) path way .directory).run u =
      match u.namesBy listing path with
      | .error e => ([v.unread path e], u)
      | .ok names => (inTurn v.ends (fun (name, type) => (hostListing listing).walkBelow v depth
          (Path.join path name) (way ++ [name]) type) names).run u := by
  rw [Host.walkBelow.eq_def, if_neg h]
  dsimp only
  rw [run_bind_of_run (run_names listing path u)]
  cases u.namesBy listing path <;> rfl

/-- **One step.** A path is passed over, or a file is visited, or a directory cannot be listed, or
the names in it are gone through. -/
theorem walkBelow_cases {bs : List β}
    (h : ((hostListing listing).walkBelow v depth path way type).run u = (bs, u')) :
    ((v.skips path = true ∨ type = .other) ∧ bs = [] ∧ u' = u) ∨
    (v.skips path = false ∧ type = .file ∧ ∃ b, (v.file way).run u = (b, u') ∧ bs = [b]) ∨
    (v.skips path = false ∧ type = .directory ∧ u' = u ∧ ∃ e, bs = [v.unread path e]) ∨
    (v.skips path = false ∧ type = .directory ∧ ∃ depth' names, depth = depth' + 1 ∧
      u.namesBy listing path = .ok names ∧
      (inTurn v.ends (fun (name, type) => (hostListing listing).walkBelow v depth'
        (Path.join path name) (way ++ [name]) type) names).run u = (bs, u')) := by
  by_cases hskips : v.skips path = true
  · rw [run_walkBelow_skip listing hskips] at h
    obtain ⟨rfl, rfl⟩ := Prod.mk.inj h
    exact .inl ⟨.inl hskips, rfl, rfl⟩
  · have hgoes : v.skips path = false := Bool.eq_false_iff.mpr hskips
    cases type with
    | other =>
      unfold Host.walkBelow at h
      rw [if_neg hskips] at h
      obtain ⟨rfl, rfl⟩ := Prod.mk.inj h
      exact .inl ⟨.inr rfl, rfl, rfl⟩
    | file =>
      rw [run_walkBelow_file listing hskips] at h
      obtain ⟨rfl, rfl⟩ := Prod.mk.inj h
      exact .inr (.inl ⟨hgoes, rfl, _, rfl, rfl⟩)
    | directory =>
      cases depth with
      | zero =>
        unfold Host.walkBelow at h
        rw [if_neg hskips] at h
        obtain ⟨rfl, rfl⟩ := Prod.mk.inj h
        exact .inr (.inr (.inl ⟨hgoes, rfl, rfl, _, rfl⟩))
      | succ depth =>
        rw [run_walkBelow_directory listing hskips] at h
        cases hlisted : u.namesBy listing path with
        | error e =>
          rw [hlisted] at h
          obtain ⟨rfl, rfl⟩ := Prod.mk.inj h
          exact .inr (.inr (.inl ⟨hgoes, rfl, rfl, e, rfl⟩))
        | ok names =>
          rw [hlisted] at h
          exact .inr (.inr (.inr ⟨hgoes, rfl, depth, names, rfl, rfl, h⟩))

end Step

/-! ### What a walk keeps -/

theorem inTurn_keeps {P : FileTree → Prop} {ends : β → Bool} {act : α → StateM FileTree (List β)}
    {as : List α} (hact : ∀ a ∈ as, ∀ u, P u → P ((act a).run u).2) (hu : P u) :
    P ((inTurn ends act as).run u).2 := by
  induction as generalizing u with
  | nil => exact hu
  | cons a as ih =>
    obtain ⟨hfirst, hlater⟩ := List.forall_mem_cons.mp hact
    rcases hone : (act a).run u with ⟨bs, u'⟩
    have hu' : P u' := by
      have := hfirst u hu
      rwa [hone] at this
    rw [run_inTurn_cons hone]
    split
    · exact hu'
    · exact ih hlater hu'

/-- **What every visit keeps, a walk keeps.** The visits may rely on their ways being of some kind
that every name which is listed keeps too. -/
theorem walkBelow_keeps {P : FileTree → Prop} {Q : Place → Prop} {v : Visitor (StateM FileTree) β}
    (hnames : ∀ u p way, P u → Q way → ∀ e ∈ listing u p, Q (way ++ [e.1]))
    (hfile : ∀ u way, P u → Q way → P ((v.file way).run u).2) {depth : Nat} {path : String}
    {type : EntryType} (hway : Q way) (hu : P u) :
    P (((hostListing listing).walkBelow v depth path way type).run u).2 := by
  induction depth using Nat.strongRecOn generalizing path way type u with
  | ind depth ih =>
    rcases hrun : ((hostListing listing).walkBelow v depth path way type).run u with ⟨bs, u'⟩
    obtain ⟨-, -, rfl⟩ | ⟨-, -, b, hvisit, -⟩ | ⟨-, -, rfl, -⟩ |
      ⟨-, -, depth', names, rfl, hlisted, hnamed⟩ := walkBelow_cases hrun
    · exact hu
    · have hkept := hfile u way hu hway
      rwa [hvisit] at hkept
    · exact hu
    · obtain ⟨p, -, rfl⟩ := namesBy_eq_ok_iff.mp hlisted
      have hkept : P ((inTurn v.ends (fun (name, type) => (hostListing listing).walkBelow v depth'
          (Path.join path name) (way ++ [name]) type) (listing u p)).run u).2 := by
        refine inTurn_keeps (fun e he u₁ hu₁ => ?_) hu
        exact ih depth' (Nat.lt_succ_self depth') (hnames u p way hu hway e he) hu₁
      rwa [hnamed] at hkept

theorem run_walk (listing : FileTree → Place → List (String × EntryType))
    (v : Visitor (StateM FileTree) β) (path : String) (t : FileTree) :
    ((hostListing listing).walk v path).run t = match t.find path with
      | .error e => ([v.unread path e], t)
      | .ok (_, entry) =>
        ((hostListing listing).walkBelow v Host.maxDepth path [] entry.type).run t := by
  unfold Host.walk
  rw [run_bind_of_run (run_entryType listing path t)]
  cases t.find path <;> rfl

theorem walk_keeps {P : FileTree → Prop} {Q : Place → Prop} {v : Visitor (StateM FileTree) β}
    (hnames : ∀ u p way, P u → Q way → ∀ e ∈ listing u p, Q (way ++ [e.1]))
    (hfile : ∀ u way, P u → Q way → P ((v.file way).run u).2) (path : String) (hnil : Q [])
    (hu : P u) : P (((hostListing listing).walk v path).run u).2 := by
  rw [run_walk]
  cases u.find path with
  | error e => exact hu
  | ok found => exact walkBelow_keeps hnames hfile hnil hu

/-! ### Visits in turn -/

theorem run_inTurn_append {ends : β → Bool} {act : α → StateM FileTree (List β)} {as as' : List α}
    {bs : List β} (h : (inTurn ends act as).run u = (bs, u')) :
    (inTurn ends act (as ++ as')).run u =
      if bs.any ends then (bs, u')
      else (bs ++ ((inTurn ends act as').run u').1, ((inTurn ends act as').run u').2) := by
  induction as generalizing u bs with
  | nil =>
    obtain ⟨rfl, rfl⟩ := Prod.mk.inj h
    rfl
  | cons a as ih =>
    rcases hone : (act a).run u with ⟨cs, u₁⟩
    rw [run_inTurn_cons hone] at h
    rw [List.cons_append, run_inTurn_cons hone]
    split at h
    · next hends =>
      obtain ⟨rfl, rfl⟩ := Prod.mk.inj h
      rw [if_pos hends, if_pos hends]
    · next hends =>
      rcases hrest : (inTurn ends act as).run u₁ with ⟨ds, u₂⟩
      rw [hrest] at h
      obtain ⟨rfl, rfl⟩ := Prod.mk.inj h
      rw [if_neg hends, ih hrest, List.any_append, Bool.eq_false_iff.mpr hends, Bool.false_or]
      split
      · rfl
      · rw [List.append_assoc]

theorem run_visitAll_cons {v : Visitor (StateM FileTree) β} {ways : List Place} {b : β}
    (h : (v.file way).run u = (b, u')) :
    (v.visitAll (way :: ways)).run u =
      if v.ends b then ([b], u')
      else (b :: ((v.visitAll ways).run u').1, ((v.visitAll ways).run u').2) := by
  have hone : (v.visit way).run u = ([b], u') := by
    rw [Visitor.visit, run_bind_of_run h]
    rfl
  unfold Visitor.visitAll
  rw [run_inTurn_cons hone, List.any_cons, List.any_nil, Bool.or_false]
  rfl

theorem run_visitAll_singleton (v : Visitor (StateM FileTree) β) (way : Place) (u : FileTree) :
    (v.visitAll [way]).run u = ([((v.file way).run u).1], ((v.file way).run u).2) := by
  rw [run_visitAll_cons rfl]
  split <;> rfl

theorem run_visitAll_append {v : Visitor (StateM FileTree) β} {ways ways' : List Place}
    {bs : List β} (h : (v.visitAll ways).run u = (bs, u')) :
    (v.visitAll (ways ++ ways')).run u =
      if bs.any v.ends then (bs, u')
      else (bs ++ ((v.visitAll ways').run u').1, ((v.visitAll ways').run u').2) :=
  run_inTurn_append h

/-- The first visit ends them all, or the others follow. -/
theorem visitAll_cases {v : Visitor (StateM FileTree) β} {ways : List Place} {bs : List β}
    (h : (v.visitAll (way :: ways)).run u = (bs, u')) :
    (∃ b, (v.file way).run u = (b, u') ∧ v.ends b = true ∧ bs = [b]) ∨
    (∃ b u₁ bs', (v.file way).run u = (b, u₁) ∧ v.ends b = false ∧
      (v.visitAll ways).run u₁ = (bs', u') ∧ bs = b :: bs') := by
  rcases hone : (v.file way).run u with ⟨b, u₁⟩
  rw [run_visitAll_cons hone] at h
  split at h
  · next hends =>
    obtain ⟨rfl, rfl⟩ := Prod.mk.inj h
    exact .inl ⟨b, rfl, hends, rfl⟩
  · next hends =>
    obtain ⟨rfl, rfl⟩ := Prod.mk.inj h
    exact .inr ⟨b, u₁, _, rfl, Bool.eq_false_iff.mpr hends, rfl, rfl⟩

/-! ### Sources -/

/-- Being a source: a file below `src` that lies neither at nor below `out`. -/
structure IsSource (t : FileTree) (src out way : Place) : Prop where
  file : ∃ bytes, t.get? (src ++ way) = some (.file bytes)
  outside : ¬ out <+: src ++ way

namespace IsSource

/-- No target is a source. -/
theorem ne_target (h : t.IsSource src out way) (way' : Place) : src ++ way ≠ out ++ way' := by
  intro heq
  apply h.outside
  rw [heq]
  exact List.prefix_append out way'

theorem plain_target (ht : t.WellFormed) (hout : out.Plain) (h : t.IsSource src out way) :
    (out ++ way).Plain := by
  obtain ⟨bytes, hfile⟩ := h.file
  exact Place.plain_append.mpr ⟨hout, (Place.plain_append.mp (ht.plain hfile)).2⟩

/-- No source lies on the way to another one. -/
theorem eq_of_isPrefix (ht : t.WellFormed) {way' : Place} (h : t.IsSource src out way)
    (h' : t.IsSource src out way') (hpre : way <+: way') : way = way' := by
  obtain ⟨bytes, hfile⟩ := h.file
  obtain ⟨bytes', hfile'⟩ := h'.file
  have heq := ht.eq_of_file hfile hfile' ((List.prefix_append_right_inj src).mpr hpre)
  exact List.append_cancel_left heq

end IsSource

/-! ### Steady visits -/

/-- Steady visits of the sources: with the sources in `done` visited the tree is as `Inv done` says,
and it is then the same as at the start outside the directory that is passed over. -/
structure Steady (t : FileTree) (src out : Place) (v : Visitor (StateM FileTree) β)
    (Inv : Set Place → FileTree → Prop) : Prop where
  skips_iff : ∀ {p : Place}, p.Plain → (v.skips p.text = true ↔ p = out)
  outside : ∀ {done u p}, Inv done u → ¬ out <+: p → u.get? p = t.get? p
  /-- One more source, unless its visit ends the walk. -/
  step : ∀ {done u u' way b}, Inv done u → t.IsSource src out way → way ∉ done →
    (v.file way).run u = (b, u') → v.ends b = false → Inv (insert way done) u'

/-- Visiting a set of files: whatever was visited before, if it was none of them, each of them is
visited once, in some order. -/
def Visits (v : Visitor (StateM FileTree) β) (Inv : Set Place → FileTree → Prop) (files : Set Place)
    (act : StateM FileTree (List β)) : Prop :=
  ∀ done u, Inv done u → (∀ way ∈ files, way ∉ done) → ∃ ways : List Place, ways.Nodup ∧
    (∀ way, way ∈ ways ↔ way ∈ files) ∧ act.run u = (v.visitAll ways).run u

/-- Behind the first file the others are still new. -/
theorem not_mem_insert {ways : List Place} {done : Set Place} (hother : way ∉ ways)
    (hnew : ∀ way' ∈ ways, way' ∉ done) : ∀ way' ∈ ways, way' ∉ insert way done := by
  intro way' hway' hmem
  rcases Set.mem_insert_iff.mp hmem with rfl | hdone
  · exact hother hway'
  · exact hnew way' hway' hdone

namespace Steady

variable {v : Visitor (StateM FileTree) β} {Inv : Set Place → FileTree → Prop} {done : Set Place}
variable {ways : List Place} {bs : List β}

/-- As long as no visit ends the walk, the tree is as it should be. -/
theorem visitAll (h : Steady t src out v Inv) (hu : Inv done u) (hnodup : ways.Nodup)
    (hsource : ∀ way ∈ ways, t.IsSource src out way) (hnew : ∀ way ∈ ways, way ∉ done)
    (hrun : (v.visitAll ways).run u = (bs, u')) (hgoes : bs.any v.ends = false) :
    Inv (done ∪ {way | way ∈ ways}) u' := by
  induction ways generalizing u done bs with
  | nil =>
    obtain ⟨-, rfl⟩ := Prod.mk.inj hrun
    have hnone : done ∪ {way | way ∈ ([] : List Place)} = done := by
      ext way
      simp
    rw [hnone]
    exact hu
  | cons way ways ih =>
    obtain ⟨hfirst, hsource⟩ := List.forall_mem_cons.mp hsource
    obtain ⟨hnewFirst, hnew⟩ := List.forall_mem_cons.mp hnew
    obtain ⟨hother, hnodup⟩ := List.nodup_cons.mp hnodup
    obtain ⟨b, -, hends, rfl⟩ | ⟨b, u₁, bs', hvisit, hends, hrest, rfl⟩ := visitAll_cases hrun
    · rw [List.any_cons, hends] at hgoes
      cases hgoes
    · rw [List.any_cons, hends, Bool.false_or] at hgoes
      have hlater := ih (h.step hu hfirst hnewFirst hvisit hends) hnodup hsource
        (not_mem_insert hother hnew) hrest hgoes
      have hunion : insert way done ∪ {way' | way' ∈ ways} =
          done ∪ {way' | way' ∈ way :: ways} := by
        ext way'
        simp only [Set.mem_union, Set.mem_insert_iff, Set.mem_ofPred_eq, List.mem_cons]
        tauto
      rw [← hunion]
      exact hlater

/-- **Visits in turn.** Actions that visit files of their own visit all these files together. -/
theorem visits_inTurn (h : Steady t src out v Inv) {act : α → StateM FileTree (List β)}
    {files : α → Set Place} {as : List α} (hact : ∀ a ∈ as, Visits v Inv (files a) (act a))
    (hsource : ∀ a ∈ as, ∀ way ∈ files a, t.IsSource src out way)
    (hapart : as.Pairwise fun a b => ∀ way ∈ files a, way ∉ files b) :
    Visits v Inv {way | ∃ a ∈ as, way ∈ files a} (inTurn v.ends act as) := by
  induction as with
  | nil => exact fun done u _ _ => ⟨[], List.nodup_nil, by simp, rfl⟩
  | cons a as ih =>
    obtain ⟨hfirst, hact⟩ := List.forall_mem_cons.mp hact
    obtain ⟨hsourceFirst, hsource⟩ := List.forall_mem_cons.mp hsource
    obtain ⟨hapartFirst, hapart⟩ := List.pairwise_cons.mp hapart
    have ih := ih hact hsource hapart
    intro done u hu hnew
    have hnewFirst : ∀ way ∈ files a, way ∉ done :=
      fun way hway => hnew way ⟨a, List.mem_cons_self, hway⟩
    have hnewLater : ∀ way, (∃ b ∈ as, way ∈ files b) → way ∉ done :=
      fun way ⟨b, hb, hway⟩ => hnew way ⟨b, List.mem_cons_of_mem a hb, hway⟩
    -- the files of the first action
    obtain ⟨ways, hnodup, hmem, hone⟩ := hfirst done u hu hnewFirst
    rcases hvisits : (v.visitAll ways).run u with ⟨bs, u₁⟩
    -- and those of the others: if the first action ends the walk, any order of them will do
    obtain ⟨ways', hnodup', hmem', hlater⟩ : ∃ ways' : List Place, ways'.Nodup ∧
        (∀ way, way ∈ ways' ↔ ∃ b ∈ as, way ∈ files b) ∧ (bs.any v.ends = false →
          (inTurn v.ends act as).run u₁ = (v.visitAll ways').run u₁) := by
      by_cases hends : bs.any v.ends = true
      · obtain ⟨ways', hnodup', hmem', -⟩ := ih done u hu hnewLater
        exact ⟨ways', hnodup', hmem', fun hgoes => absurd hends (by rw [hgoes]; exact nofun)⟩
      · have hu₁ := h.visitAll hu hnodup (fun way hway => hsourceFirst way ((hmem way).mp hway))
          (fun way hway => hnewFirst way ((hmem way).mp hway)) hvisits (Bool.eq_false_iff.mpr hends)
        obtain ⟨ways', hnodup', hmem', hrun⟩ := ih _ u₁ hu₁ (by
          rintro way hlater (hdone | hway)
          · exact hnewLater way hlater hdone
          · obtain ⟨b, hb, hway'⟩ := hlater
            exact hapartFirst b hb way ((hmem way).mp hway) hway')
        exact ⟨ways', hnodup', hmem', fun _ => hrun⟩
    refine ⟨ways ++ ways', ?_, fun way => ?_, ?_⟩
    · refine List.nodup_append.mpr ⟨hnodup, hnodup', ?_⟩
      rintro way hway way' hway' rfl
      obtain ⟨b, hb, hfile⟩ := (hmem' way).mp hway'
      exact hapartFirst b hb way ((hmem way).mp hway) hfile
    · rw [List.mem_append, hmem, hmem']
      simp
    · rw [run_inTurn_cons (hone.trans hvisits), run_visitAll_append hvisits]
      by_cases hends : bs.any v.ends = true
      · rw [if_pos hends, if_pos hends]
      · rw [if_neg hends, if_neg hends, hlater (Bool.eq_false_iff.mpr hends)]

end Steady

/-! ### A walk -/

/-- What a walk comes to: the directory that is passed over, or something outside of it. -/
def Reached (t : FileTree) (src out way : Place) (type : EntryType) : Prop :=
  src ++ way = out ∨ ¬ out <+: src ++ way ∧
    ∃ entry, t.get? (src ++ way) = some entry ∧ entry.type = type

theorem reached_nil {entry : Entry} (hapart : ¬ out <+: src) (hentry : t.get? src = some entry) :
    t.Reached src out [] entry.type := by
  rw [Reached, List.append_nil]
  exact .inr ⟨hapart, entry, hentry, rfl⟩

theorem Reached.plain {type : EntryType} (ht : t.WellFormed) (hout : out.Plain)
    (h : t.Reached src out way type) : Place.Plain (src ++ way) := by
  obtain heq | ⟨-, entry, hentry, -⟩ := h
  · rw [heq]
    exact hout
  · exact ht.plain hentry

theorem name_eq_of_isPrefix {name name' : String} {rest : Place} (h : way ++ [name] <+: rest)
    (h' : way ++ [name'] <+: rest) : name = name' := by
  have hpre := List.prefix_of_prefix_length_le h h' (by simp)
  have heq := hpre.eq_of_length (by simp)
  exact (List.cons.inj (List.append_cancel_left heq)).1

namespace Steady

variable {v : Visitor (StateM FileTree) β} {Inv : Set Place → FileTree → Prop} {done : Set Place}

variable (ht : t.WellFormed) (h : Steady t src out v Inv)
variable (hlisting : ∀ u p, (listing u p).Perm (u.namesIn p))

include h hlisting

/-- What is listed outside of the directory that is passed over was there at the start. -/
theorem reached_of_listed (hu : Inv done u) (houtside : ¬ out <+: src ++ way) {name : String}
    {type : EntryType} (hmem : (name, type) ∈ listing u (src ++ way)) :
    t.Reached src out (way ++ [name]) type := by
  rw [(hlisting u _).mem_iff, mem_namesIn_iff, List.append_assoc] at hmem
  by_cases hout : src ++ (way ++ [name]) = out
  · exact .inl hout
  · have houtside' : ¬ out <+: src ++ (way ++ [name]) := by
      rw [← List.append_assoc, List.prefix_concat_iff]
      rintro (heq | hpre)
      · rw [List.append_assoc] at heq
        exact hout heq.symm
      · exact houtside hpre
    rw [h.outside hu houtside'] at hmem
    exact .inr ⟨houtside', hmem⟩

include ht

/-- The next name on the way to something outside of that directory is listed. -/
theorem exists_listed (hu : Inv done u) {way' : Place} {entry : Entry}
    (hentry : t.get? (src ++ way') = some entry) (houtside : ¬ out <+: src ++ way')
    (habove : way.Above way') : ∃ e ∈ listing u (src ++ way), way ++ [e.1] <+: way' := by
  obtain ⟨⟨rest, rfl⟩, hne⟩ := habove
  cases rest with
  | nil => exact absurd (List.append_nil way).symm hne
  | cons name rest =>
    have hnext : way ++ [name] <+: way ++ name :: rest := ⟨rest, by simp⟩
    have hnext' : src ++ (way ++ [name]) <+: src ++ (way ++ name :: rest) :=
      (List.prefix_append_right_inj src).mpr hnext
    obtain ⟨entry', hentry'⟩ : ∃ entry', t.get? (src ++ (way ++ [name])) = some entry' := by
      rcases Place.above_of_isPrefix hnext' with heq | habove
      · exact ⟨entry, heq ▸ hentry⟩
      · exact ⟨.directory, ht.above hentry habove⟩
    refine ⟨(name, entry'.type), ?_, hnext⟩
    rw [(hlisting u _).mem_iff, mem_namesIn_iff, List.append_assoc]
    rw [← h.outside hu fun hout => houtside (hout.trans hnext')] at hentry'
    exact ⟨entry', hentry', rfl⟩

variable (hout : out.Plain)

include hout

/-- **One directory.** If below every name that can be listed in it the sources are visited, they
are visited below the directory. -/
theorem visits_directory {depth : Nat} (houtside : ¬ out <+: src ++ way)
    (hdir : t.get? (src ++ way) = some .directory) (hnameable : Place.Nameable (src ++ way))
    (hbelow : ∀ name type, t.Reached src out (way ++ [name]) type →
      Visits v Inv {way' | t.IsSource src out way' ∧ way ++ [name] <+: way'}
        ((hostListing listing).walkBelow v depth (Place.text (src ++ (way ++ [name])))
          (way ++ [name]) type)) :
    Visits v Inv {way' | t.IsSource src out way' ∧ way <+: way'}
      ((hostListing listing).walkBelow v (depth + 1) (Place.text (src ++ way)) way .directory) := by
  intro done u hu hnew
  have hplain : Place.Plain (src ++ way) := ht.plain hdir
  have hgoes : ¬ v.skips (Place.text (src ++ way)) = true := by
    rw [h.skips_iff hplain]
    rintro rfl
    exact houtside (List.prefix_refl _)
  -- the directory is what it was at the start, and so are those above it
  have hsame : ∀ {p}, p <+: src ++ way → u.get? p = t.get? p :=
    fun hpre => h.outside hu fun hout => houtside (hout.trans hpre)
  have hlisted : u.namesBy listing (Place.text (src ++ way)) = .ok (listing u (src ++ way)) := by
    refine (namesBy_text_iff hplain).mpr ⟨hnameable, fun r hr => ?_, ?_, rfl⟩
    · rw [hsame hr.1]
      exact ht.above hdir hr
    · rw [hsame (List.prefix_refl _), hdir]
  -- each name has sources of its own below it, since it is listed once
  have hvisits : ∀ e ∈ listing u (src ++ way),
      Visits v Inv {way' | t.IsSource src out way' ∧ way ++ [e.1] <+: way'}
        ((hostListing listing).walkBelow v depth (Path.join (Place.text (src ++ way)) e.1)
          (way ++ [e.1]) e.2) := by
    intro e he
    have hreached := h.reached_of_listed hlisting hu houtside he
    have hname : IsFileName e.1 := hreached.plain ht hout e.1 (by simp)
    rw [Place.join_text hplain hname, List.append_assoc]
    exact hbelow e.1 e.2 hreached
  have hapart : (listing u (src ++ way)).Pairwise fun e e' =>
      ∀ way' ∈ {way' | t.IsSource src out way' ∧ way ++ [e.1] <+: way'},
        way' ∉ {way' | t.IsSource src out way' ∧ way ++ [e'.1] <+: way'} := by
    have hnodup : ((listing u (src ++ way)).map Prod.fst).Nodup :=
      ((hlisting u _).map _).nodup_iff.mpr (u.nodup_namesIn _)
    refine (List.pairwise_map.mp hnodup).imp fun hne => ?_
    rintro way' ⟨-, hpre⟩ ⟨-, hpre'⟩
    exact hne (name_eq_of_isPrefix hpre hpre')
  have hall : {way' | t.IsSource src out way' ∧ way <+: way'} =
      {way' | ∃ e ∈ listing u (src ++ way), t.IsSource src out way' ∧ way ++ [e.1] <+: way'} := by
    ext way'
    constructor
    · rintro ⟨hsource, hpre⟩
      obtain ⟨bytes, hfile⟩ := hsource.file
      have hne : way ≠ way' := by
        rintro rfl
        rw [hdir] at hfile
        cases hfile
      obtain ⟨e, he, hnext⟩ := h.exists_listed ht hlisting hu hfile hsource.outside ⟨hpre, hne⟩
      exact ⟨e, he, hsource, hnext⟩
    · rintro ⟨e, -, hsource, hnext⟩
      exact ⟨hsource, (List.prefix_append way [e.1]).trans hnext⟩
  rw [run_walkBelow_directory listing hgoes, hlisted]
  rw [hall] at hnew ⊢
  exact h.visits_inTurn hvisits (fun e _ way' hway' => hway'.1) hapart done u hu hnew

variable (hdirs : ∀ way, t.get? (src ++ way) = some .directory → ¬ out <+: src ++ way →
  Place.Nameable (src ++ way))

include hdirs

/-- **A walk below a place.** It visits the sources there, each of them once. -/
theorem visits_walkBelow {depth : Nat} {type : EntryType}
    (hdepth : depth + way.length = Host.maxDepth) (hat : t.Reached src out way type) :
    Visits v Inv {way' | t.IsSource src out way' ∧ way <+: way'}
      ((hostListing listing).walkBelow v depth (Place.text (src ++ way)) way type) := by
  induction depth using Nat.strongRecOn generalizing way type with
  | ind depth ih =>
    have hplain := hat.plain ht hout
    obtain hskip | ⟨houtside, entry, hentry, rfl⟩ := hat
    · -- nothing below the directory that is passed over is a source
      refine fun done u _ _ => ⟨[], List.nodup_nil, fun way' => ⟨nofun, ?_⟩, ?_⟩
      · rintro ⟨hsource, hpre⟩
        refine absurd ?_ hsource.outside
        rw [← hskip, List.prefix_append_right_inj]
        exact hpre
      · rw [run_walkBelow_skip listing ((h.skips_iff hplain).mpr hskip)]
        rfl
    · cases entry with
      | file bytes =>
        -- a file is the only source at or below it
        have hsource : t.IsSource src out way := ⟨⟨bytes, hentry⟩, houtside⟩
        refine fun done u _ _ => ⟨[way], List.nodup_singleton way, fun way' => ?_, ?_⟩
        · rw [List.mem_singleton]
          constructor
          · rintro rfl
            exact ⟨hsource, List.prefix_refl way'⟩
          · rintro ⟨hsource', hpre⟩
            exact (hsource.eq_of_isPrefix ht hsource' hpre).symm
        · rw [run_visitAll_singleton]
          refine run_walkBelow_file listing ?_
          rw [h.skips_iff hplain]
          rintro rfl
          exact houtside (List.prefix_refl _)
      | directory =>
        have hnameable := hdirs way hentry houtside
        -- a path that can be listed has fewer names than the walk can go down
        obtain ⟨depth, rfl⟩ : ∃ depth', depth = depth' + 1 := by
          have hlength := hnameable.length_lt hplain
          rw [List.length_append] at hlength
          exact ⟨depth - 1, by omega⟩
        refine h.visits_directory ht hlisting hout houtside hentry hnameable ?_
        intro name type hreached
        refine ih depth (Nat.lt_succ_self depth) ?_ hreached
        rw [List.length_append, List.length_singleton]
        omega

/-- **A walk.** It comes to every source once, in some order. -/
theorem walk (hapart : ¬ out <+: src) (hfind : t.Finds src.text src) (hsrc : src.Plain)
    (hstart : Inv ∅ t) : ∃ ways : List Place, ways.Nodup ∧
      (∀ way, way ∈ ways ↔ t.IsSource src out way) ∧
      ((hostListing listing).walk v src.text).run t = (v.visitAll ways).run t := by
  obtain ⟨entry, hfind⟩ := hfind
  obtain ⟨-, -, -, hentry⟩ := (find_text_iff hsrc).mp hfind
  have hat : t.Reached src out [] entry.type := reached_nil hapart hentry
  obtain ⟨ways, hnodup, hmem, hrun⟩ := h.visits_walkBelow ht hlisting hout hdirs (Nat.add_zero _)
    hat ∅ t hstart fun way _ => Set.notMem_empty way
  refine ⟨ways, hnodup, fun way => ?_, ?_⟩
  · rw [hmem way]
    exact ⟨fun hway => hway.1, fun hway => ⟨hway, List.nil_prefix⟩⟩
  · rw [run_walk, hfind, ← hrun, List.append_nil]

end Steady

end FileTree

end CondRegions
