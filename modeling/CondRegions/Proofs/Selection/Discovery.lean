import CondRegions.Proofs.Files.Walk
import CondRegions.Transformer

/-!
# Discovery

Discovery is a walk that only reads. It fails if a directory on the way cannot be listed; this is
then so whatever else happens in the tree, since it is the path of the directory that the system
does not accept (`Transformer.nameable_of_discover`).

If it succeeds, it gives the paths of the sources that are selected, and no others
(`Transformer.discover_of_nameable`). So a walk that comes to the sources later finds a path among
them if and only if the path is selected (`Transformer.any_same_eq_selects`).
-/

namespace CondRegions

open FileTree

variable {listing : FileTree → Place → List (String × EntryType)}
variable {T : Transformer} {t t' : FileTree} {src out way : Place} {selected : List String}

/-! ### Noting ways -/

theorem Visitor.skips_noting_iff (hout : out.Plain) {p : Place} (hp : p.Plain) :
    (Visitor.noting (m := StateM FileTree) (some out.text)).skips p.text = true ↔ p = out :=
  Place.same_text_iff hp hout

/-- Whatever was visited, the tree is as it was. -/
def FileTree.Still (t : FileTree) (_ : Set Place) (u : FileTree) : Prop :=
  u = t

theorem FileTree.still_self (t : FileTree) : t.Still ∅ t := rfl

/-- Noting ways leaves the tree as it is. -/
theorem FileTree.steady_noting (t : FileTree) (src : Place) (hout : out.Plain) :
    t.Steady src out (.noting (some out.text)) t.Still where
  skips_iff := Visitor.skips_noting_iff hout
  outside hu _ := by rw [show _ = t from hu]
  step hu _ _ hvisit _ := by
    obtain ⟨-, rfl⟩ := Prod.mk.inj hvisit
    exact hu

theorem Visitor.run_visitAll_noting (skip : Option String) (ways : List Place) (t : FileTree) :
    ((Visitor.noting skip).visitAll ways).run t = (ways.map .ok, t) := by
  induction ways with
  | nil => rfl
  | cons way ways ih =>
    have hvisit : ((Visitor.noting skip).file way : StateM FileTree _).run t = (.ok way, t) := rfl
    rw [run_visitAll_cons hvisit, ih]
    rfl

theorem FileTree.walkBelow_noting (listing : FileTree → Place → List (String × EntryType))
    (skip : Option String) (depth : Nat) (path : String) (way : Place) (type : EntryType)
    (t : FileTree) :
    (((hostListing listing).walkBelow (.noting skip) depth path way type).run t).2 = t :=
  walkBelow_keeps (P := fun u => u = t) (Q := fun _ => True) (v := .noting skip)
    (fun _ _ _ _ _ _ _ => trivial) (fun _ _ hu _ => hu) trivial rfl

/-- Actions that leave the tree as it is and do not end before the last one have none that ends. -/
theorem FileTree.goes_of_inTurn {α β : Type} {ends : β → Bool} {act : α → StateM FileTree (List β)}
    {as : List α} (hact : ∀ a ∈ as, ((act a).run t).2 = t)
    (hgoes : ((inTurn ends act as).run t).1.any ends = false) :
    ∀ a ∈ as, ((act a).run t).1.any ends = false := by
  induction as with
  | nil => exact nofun
  | cons a as ih =>
    obtain ⟨hfirst, hact⟩ := List.forall_mem_cons.mp hact
    rcases hone : (act a).run t with ⟨bs, t'⟩
    obtain rfl : t' = t := by rw [← hfirst, hone]
    rw [run_inTurn_cons hone] at hgoes
    split at hgoes
    · next hends =>
      rw [hends] at hgoes
      cases hgoes
    · rw [List.any_append, Bool.or_eq_false_iff] at hgoes
      refine List.forall_mem_cons.mpr ⟨?_, ih hact hgoes.2⟩
      rw [hone]
      exact hgoes.1

/-- **Directories.** If a walk can list all directories that it comes to, the system accepts their
paths. -/
theorem FileTree.nameable_of_noted (ht : t.WellFormed) (hout : out.Plain)
    (hlisting : ∀ u p, (listing u p).Perm (u.namesIn p)) {depth : Nat} {type : EntryType}
    (hat : t.Reached src out way type) {found : List (Except Diagnostic Place)}
    (hrun : ((hostListing listing).walkBelow (.noting (some out.text)) depth
      (Place.text (src ++ way)) way type).run t = (found, t'))
    (hgoes : found.any (!·.isOk) = false) {way' : Place} (hpre : way <+: way')
    (hdir : t.get? (src ++ way') = some .directory) (houtside : ¬ out <+: src ++ way') :
    Place.Nameable (src ++ way') := by
  induction depth using Nat.strongRecOn generalizing way type found t' with
  | ind depth ih =>
    have hplain := hat.plain ht hout
    have hpre' : src ++ way <+: src ++ way' := (List.prefix_append_right_inj src).mpr hpre
    have houtside' : ¬ out <+: src ++ way := fun h => houtside (h.trans hpre')
    have hdir' : t.get? (src ++ way) = some .directory := by
      rcases Place.above_of_isPrefix hpre' with heq | habove
      · rw [heq, hdir]
      · exact ht.above hdir habove
    obtain rfl : type = .directory := by
      obtain heq | ⟨-, entry, hentry, rfl⟩ := hat
      · exact absurd (heq ▸ List.prefix_refl out) houtside'
      · rw [hdir'] at hentry
        obtain rfl := Option.some.inj hentry
        rfl
    obtain ⟨hskips | hother, -⟩ | ⟨-, hfile, -⟩ | ⟨-, -, -, e, rfl⟩ |
      ⟨-, -, depth, names, rfl, hlisted, hnamed⟩ := walkBelow_cases hrun
    · have heq := (Visitor.skips_noting_iff hout hplain).mp hskips
      exact absurd (heq ▸ List.prefix_refl out) houtside'
    · cases hother
    · cases hfile
    · cases hgoes
    · obtain ⟨hnameable, -, -, rfl⟩ := (namesBy_text_iff hplain).mp hlisted
      by_cases heq : way = way'
      · rw [← heq]
        exact hnameable
      · -- the walk goes on along the next name, with the tree as it was
        have hsteady := t.steady_noting src hout
        obtain ⟨⟨name, type⟩, hmem, hnext⟩ :=
          hsteady.exists_listed ht hlisting t.still_self hdir houtside ⟨hpre, heq⟩
        have hreached := hsteady.reached_of_listed hlisting t.still_self houtside' hmem
        have hname : IsFileName name := hreached.plain ht hout name (by simp)
        have hgoes' := goes_of_inTurn (fun e _ => walkBelow_noting listing _ depth _ _ e.2 t)
          (by rw [hnamed]; exact hgoes) (name, type) hmem
        rw [Place.join_text hplain hname, List.append_assoc] at hgoes'
        exact ih depth (Nat.lt_succ_self depth) hreached rfl hgoes' hnext

/-! ### What is discovered -/

theorem mapM_id_map_ok (ways : List Place) :
    (ways.map fun way => (.ok way : Except Diagnostic Place)).mapM id = .ok ways := by
  induction ways with
  | nil => rfl
  | cons way ways ih =>
    rw [List.map_cons, List.mapM_cons, ih]
    rfl

theorem isOk_of_mapM_id {found : List (Except Diagnostic Place)} {ways : List Place}
    (h : found.mapM id = .ok ways) : found.any (!·.isOk) = false := by
  induction found generalizing ways with
  | nil => rfl
  | cons f found ih =>
    rw [List.mapM_cons] at h
    cases f with
    | error d => cases h
    | ok way =>
      cases hfound : found.mapM id with
      | error d =>
        rw [hfound] at h
        cases h
      | ok ways' => exact ih hfound

theorem Path.mem_insertInOrder_iff {path q : String} {paths : List String} :
    q ∈ Path.insertInOrder path paths ↔ q = path ∨ q ∈ paths := by
  induction paths with
  | nil => exact List.mem_cons
  | cons next rest ih =>
    rw [Path.insertInOrder]
    split
    · exact List.mem_cons
    · rw [List.mem_cons, ih, List.mem_cons]
      exact or_left_comm

theorem Path.mem_inOrder_iff {q : String} {paths : List String} :
    q ∈ Path.inOrder paths ↔ q ∈ paths := by
  induction paths with
  | nil => exact Iff.rfl
  | cons path paths ih =>
    rw [Path.inOrder, List.foldr_cons, Path.mem_insertInOrder_iff, List.mem_cons]
    exact or_congr_right ih

/-- Listing what is selected: the paths of the sources that are selected, in any order. -/
def Transformer.Lists (T : Transformer) (t : FileTree) (src out : Place) (selected : List String) :
    Prop :=
  ∀ path, path ∈ selected ↔
    ∃ way, t.IsSource src out way ∧ path = Place.text (src ++ way) ∧ T.selects path = true

namespace Transformer

/-- Discovery, with what comes of the walk. -/
theorem run_discover (host : Host (StateM FileTree)) (T : Transformer) (dir : String)
    (skip : Option String) (t : FileTree) :
    (T.discover host dir skip).run t =
      ((((host.walk (.noting skip) dir).run t).1.mapM id).map fun ways =>
        Path.inOrder ((ways.map (Path.descend dir)).filter T.selects),
        ((host.walk (.noting skip) dir).run t).2) := rfl

theorem discover_keeps (listing : FileTree → Place → List (String × EntryType)) (T : Transformer)
    (dir : String) (skip : Option String) (t : FileTree) :
    ((T.discover (hostListing listing) dir skip).run t).2 = t :=
  walk_keeps (P := fun u => u = t) (Q := fun _ => True) (v := .noting skip)
    (fun _ _ _ _ _ _ _ => trivial) (fun _ _ hu _ => hu) dir trivial rfl

variable (ht : t.WellFormed) (hsrc : src.Plain) (hout : out.Plain) (hapart : ¬ out <+: src)
variable (hlisting : ∀ u p, (listing u p).Perm (u.namesIn p))

include ht hsrc hout hapart hlisting

/-- **Discovery that succeeds.** The system accepts the paths of all directories on the way. -/
theorem nameable_of_discover
    (hrun : (T.discover (hostListing listing) src.text (some out.text)).run t =
      (.ok selected, t')) :
    t.Finds src.text src ∧ ∀ way, t.get? (src ++ way) = some .directory → ¬ out <+: src ++ way →
      Place.Nameable (src ++ way) := by
  rw [run_discover] at hrun
  obtain ⟨hfound, -⟩ := Prod.mk.inj hrun
  rcases hwalk : ((hostListing listing).walk (.noting (some out.text)) src.text).run t
    with ⟨found, u⟩
  rw [hwalk] at hfound
  cases hways : found.mapM id with
  | error d =>
    rw [hways] at hfound
    cases hfound
  | ok ways =>
    have hgoes := isOk_of_mapM_id hways
    rw [run_walk] at hwalk
    cases hfind : t.find src.text with
    | error e =>
      rw [hfind] at hwalk
      obtain ⟨rfl, -⟩ := Prod.mk.inj hwalk
      cases hgoes
    | ok place =>
      obtain ⟨p, entry⟩ := place
      obtain ⟨rfl, -, -, hentry⟩ := (find_text_iff hsrc).mp hfind
      rw [hfind] at hwalk
      refine ⟨⟨entry, hfind⟩, fun way hdir houtside => ?_⟩
      have hbelow : ((hostListing listing).walkBelow (.noting (some out.text)) Host.maxDepth
          (Place.text (p ++ [])) [] entry.type).run t = (found, u) := by
        rw [List.append_nil]
        exact hwalk
      exact nameable_of_noted ht hout hlisting (reached_nil hapart hentry) hbelow hgoes
        List.nil_prefix hdir houtside

/-- **Discovery.** If the system accepts the paths of all directories on the way, discovery succeeds
and lists what is selected. -/
theorem discover_of_nameable (T : Transformer) (hfind : t.Finds src.text src)
    (hdirs : ∀ way, t.get? (src ++ way) = some .directory → ¬ out <+: src ++ way →
      Place.Nameable (src ++ way)) :
    ∃ selected, (T.discover (hostListing listing) src.text (some out.text)).run t =
      (.ok selected, t) ∧ T.Lists t src out selected := by
  obtain ⟨ways, -, hmem, hwalk⟩ :=
    (t.steady_noting src hout).walk ht hlisting hout hdirs hapart hfind hsrc t.still_self
  rw [Visitor.run_visitAll_noting] at hwalk
  refine ⟨_, by rw [run_discover, hwalk, mapM_id_map_ok]; rfl, fun path => ?_⟩
  simp only [Path.mem_inOrder_iff, List.mem_filter, List.mem_map]
  -- the way to a source is plain, so that going down from the directory gives the path of the place
  have hdescend : ∀ way, t.IsSource src out way →
      Path.descend src.text way = Place.text (src ++ way) := by
    intro way hway
    obtain ⟨bytes, hfile⟩ := hway.file
    exact Place.descend_text hsrc (Place.plain_append.mp (ht.plain hfile)).2
  constructor
  · rintro ⟨⟨way, hway, rfl⟩, hselects⟩
    exact ⟨way, (hmem way).mp hway, hdescend way ((hmem way).mp hway), hselects⟩
  · rintro ⟨way, hway, rfl, hselects⟩
    exact ⟨⟨way, (hmem way).mpr hway, hdescend way hway⟩, hselects⟩

omit hout hapart hlisting hsrc

/-- **The second walk agrees.** A source is among what was listed if and only if it is selected. -/
theorem any_same_eq_selects (h : T.Lists t src out selected) (hway : t.IsSource src out way) :
    selected.any (Path.same (Place.text (src ++ way))) = T.selects (Place.text (src ++ way)) := by
  obtain ⟨bytes, hfile⟩ := hway.file
  rw [Bool.eq_iff_iff, List.any_eq_true]
  constructor
  · rintro ⟨path, hpath, hsame⟩
    obtain ⟨way', hway', rfl, hselects⟩ := (h path).mp hpath
    obtain ⟨bytes', hfile'⟩ := hway'.file
    rw [(Place.same_text_iff (ht.plain hfile) (ht.plain hfile')).mp hsame]
    exact hselects
  · intro hselects
    refine ⟨_, (h _).mpr ⟨way, hway, rfl, hselects⟩, ?_⟩
    exact (Place.same_text_iff (ht.plain hfile) (ht.plain hfile)).mpr rfl

end Transformer

end CondRegions
