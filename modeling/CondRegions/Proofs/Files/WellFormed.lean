import CondRegions.Proofs.Files.Directories
import Mathlib.Data.List.Induction
import Mathlib.Data.List.Nodup

/-!
# Well-formed trees

In a well-formed tree whatever stands at a place stands in a directory, and has a name that a file
can have. So nothing stands below a file (`FileTree.WellFormed.eq_of_file`). Making directories
keeps a tree well formed, and so does writing a file. Whether a tree is well formed can be decided
(`FileTree.wellFormed_iff`).

The names in a place are those with which something stands there, each of them once
(`FileTree.mem_namesIn_iff`, `FileTree.nodup_namesIn`).
-/

namespace CondRegions

/-- Entries can be compared. The instance for bytes is named, since there is more than one. -/
instance : DecidableEq Entry
  | .directory, .directory => isTrue rfl
  | .directory, .file _ => isFalse nofun
  | .file _, .directory => isFalse nofun
  | .file a, .file b =>
    @decidable_of_iff _ (a = b) (Entry.file.injEq a b).to_iff.symm (ByteArray.instDecidableEq a b)

namespace FileTree

variable {t t' : FileTree} {here p q : Place} {name : String}

/-- Being a tree of directories and files, with the working directory among the directories. -/
structure WellFormed (t : FileTree) : Prop where
  plain : ∀ {p entry}, t.get? p = some entry → p.Plain
  /-- What has a name stands in a directory. -/
  parent : ∀ {p name entry}, t.get? (p ++ [name]) = some entry → t.get? p = some .directory
  /-- The root is no file. -/
  root : ∀ bytes, t.entries.get? [] ≠ some (.file bytes)
  cwd : t.get? t.cwd = some .directory

theorem mem_entries_of_get? {entry : Entry} (hne : p ≠ []) (hp : t.get? p = some entry) :
    (p, entry) ∈ t.entries.entries := by
  unfold get? at hp
  rw [if_neg hne] at hp
  exact (FinMap.get?_eq_some_iff _ _ _).mp hp

/-- A tree is well formed if every entry has plain names and stands in a directory. -/
theorem wellFormed_iff : t.WellFormed ↔
    (∀ e ∈ t.entries.entries, Place.Plain e.1 ∧ t.get? e.1.dropLast = some .directory ∧
      (e.1 = [] → e.2 = .directory)) ∧ t.get? t.cwd = some .directory := by
  constructor
  · intro ht
    refine ⟨?_, ht.cwd⟩
    rintro ⟨p, entry⟩ hmem
    have hget : t.entries.get? p = some entry := (FinMap.get?_eq_some_iff _ _ _).mpr hmem
    by_cases hnil : p = []
    · subst hnil
      refine ⟨Place.plain_nil, rfl, fun _ => ?_⟩
      cases entry with
      | directory => rfl
      | file bytes => exact absurd hget (ht.root bytes)
    · have hentry : t.get? p = some entry := by
        unfold get?
        rw [if_neg hnil, hget]
      refine ⟨ht.plain hentry, ?_, fun h => absurd h hnil⟩
      rw [← List.dropLast_concat_getLast hnil] at hentry
      exact ht.parent hentry
  · rintro ⟨hentries, hcwd⟩
    refine ⟨?_, ?_, ?_, hcwd⟩
    · intro p entry hp
      by_cases hnil : p = []
      · rw [hnil]
        exact Place.plain_nil
      · exact (hentries _ (mem_entries_of_get? hnil hp)).1
    · intro p name entry hp
      have hparent := (hentries _ (mem_entries_of_get? (by simp) hp)).2.1
      rw [List.dropLast_concat] at hparent
      exact hparent
    · intro bytes hroot
      have hdir := (hentries _ ((FinMap.get?_eq_some_iff _ _ _).mp hroot)).2.2 rfl
      cases hdir

instance (t : FileTree) : Decidable t.WellFormed :=
  decidable_of_iff _ wellFormed_iff.symm

namespace WellFormed

/-- Above anything that exists there are directories only. -/
theorem above (ht : t.WellFormed) {entry : Entry} (hp : t.get? p = some entry) (hq : q.Above p) :
    t.get? q = some .directory := by
  -- by induction on what lies between the two places, from its end
  obtain ⟨⟨rest, rfl⟩, hne⟩ := hq
  induction rest using List.reverseRecOn generalizing entry with
  | nil => exact absurd (List.append_nil q).symm hne
  | append_singleton rest name ih =>
    rw [← List.append_assoc] at hp
    have hdir : t.get? (q ++ rest) = some .directory := ht.parent hp
    by_cases hrest : rest = []
    · rw [hrest, List.append_nil] at hdir
      exact hdir
    · exact ih hdir (by simpa using hrest)

theorem plain_of_finds (ht : t.WellFormed) {path : String} (h : t.Finds path p) : p.Plain := by
  obtain ⟨entry, hentry⟩ := h.get?_eq
  exact ht.plain hentry

/-- Nothing stands below a file. -/
theorem eq_of_file (ht : t.WellFormed) {bytes : ByteArray} {entry : Entry}
    (hq : t.get? q = some (.file bytes)) (hp : t.get? p = some entry) (hpre : q <+: p) : q = p := by
  rcases Place.above_of_isPrefix hpre with heq | habove
  · exact heq
  · have hdir := ht.above hp habove
    rw [hq] at hdir
    cases hdir

/-! ### Making directories -/

theorem withDir (ht : t.WellFormed) (hhere : t.get? here = some .directory)
    (hname : IsFileName name) (hfree : ∀ bytes, t.get? (here ++ [name]) ≠ some (.file bytes)) :
    (t.withDir (here ++ [name])).WellFormed where
  plain {p entry} hp := by
    rw [get?_withDir hfree] at hp
    split at hp
    · next heq =>
      rw [heq, Place.plain_append]
      exact ⟨ht.plain hhere, Place.plain_cons.mpr ⟨hname, Place.plain_nil⟩⟩
    · exact ht.plain hp
  parent {p name' entry} hp := by
    have hgrows := grows_withDir hfree
    rw [get?_withDir hfree] at hp
    split at hp
    · next heq =>
      obtain ⟨rfl, -⟩ := List.append_inj' heq rfl
      exact hgrows.kept hhere
    · exact hgrows.kept (ht.parent hp)
  root bytes := by
    unfold FileTree.withDir
    split
    · exact ht.root bytes
    · show (t.entries.insert _ _).get? [] ≠ _
      rw [FinMap.get?_insert_of_ne _ _ (by simp)]
      exact ht.root bytes
  cwd := by
    have hgrows := grows_withDir hfree
    rw [hgrows.cwd]
    exact hgrows.kept ht.cwd

theorem makeDirs {pieces : List String} (ht : t.WellFormed) (hhere : t.get? here = some .directory)
    (hpieces : ∀ piece ∈ pieces, '/' ∉ piece.toList) (h : t.makeDirs here pieces = .ok t') :
    t'.WellFormed := by
  -- `here` is a directory at every piece, so that nothing is made where nothing can stand
  induction pieces generalizing t here with
  | nil =>
    obtain rfl := Except.ok.inj h
    exact ht
  | cons piece pieces ih =>
    obtain ⟨hpiece, hpieces⟩ := List.forall_mem_cons.mp hpieces
    obtain ⟨-, h⟩ | ⟨-, h⟩ | ⟨hname, -, hfree, h⟩ := makeDirs_cases h
    · exact ih ht hhere hpieces h
    · -- the place above a directory is a directory, and the root stays where it is
      refine ih ht ?_ hpieces h
      by_cases hnil : here = []
      · rw [hnil]
        rfl
      · rw [← List.dropLast_concat_getLast hnil] at hhere
        exact ht.parent hhere
    · refine ih (ht.withDir hhere ⟨hname.1, hname.2.1, hname.2.2, hpiece⟩ hfree) ?_ hpieces h
      rw [get?_withDir hfree, if_pos rfl]

theorem createDirs {path : String} (ht : t.WellFormed) (h : t.createDirs path = .ok t') :
    t'.WellFormed := by
  unfold FileTree.createDirs at h
  split at h
  · cases h
  · refine ht.makeDirs ?_ (fun _ => Path.not_mem_of_mem_segments) h
    unfold origin
    split
    · rfl
    · exact ht.cwd

/-! ### Writing files -/

theorem set (ht : t.WellFormed) (hp : p.Plain)
    (habove : ∀ r : Place, r.Above p → t.get? r = some .directory)
    (hfree : t.get? p ≠ some .directory) (bytes : ByteArray) :
    (t.set p (.file bytes)).WellFormed := by
  have hne : p ≠ [] := ne_nil_of_get?_ne hfree
  -- no directory is lost, since none stood there
  have hkept : ∀ {q}, t.get? q = some .directory →
      (t.set p (.file bytes)).get? q = some .directory := by
    intro q hq
    rw [get?_set _ _ _ _ hne, if_neg, hq]
    rintro rfl
    exact hfree hq
  refine ⟨?_, ?_, ?_, hkept ht.cwd⟩
  · intro q entry hq
    rw [get?_set _ _ _ _ hne] at hq
    split at hq
    · next heq =>
      rw [heq]
      exact hp
    · exact ht.plain hq
  · intro q name entry hq
    rw [get?_set _ _ _ _ hne] at hq
    split at hq
    · next heq => exact hkept (habove q (heq ▸ Place.above_concat_iff.mpr (List.prefix_refl q)))
    · exact hkept (ht.parent hq)
  · intro bytes'
    show (t.entries.insert _ _).get? [] ≠ _
    rw [FinMap.get?_insert_of_ne _ _ hne.symm]
    exact ht.root bytes'

end WellFormed

/-! ### Names in a directory -/

/-- The names in a place are those with which something stands there. -/
theorem mem_namesIn_iff {type : EntryType} :
    (name, type) ∈ t.namesIn p ↔ ∃ entry, t.get? (p ++ [name]) = some entry ∧
      entry.type = type := by
  unfold namesIn get?
  rw [List.mem_filterMap, if_neg (by simp)]
  constructor
  · rintro ⟨⟨q, entry⟩, hmem, hname⟩
    dsimp only at hname
    split at hname
    · next name' hpre =>
      obtain ⟨rfl, rfl⟩ := Prod.mk.inj (Option.some.inj hname)
      rw [List.isPrefixOf?_eq_some_iff_append_eq.mp hpre]
      exact ⟨entry, (FinMap.get?_eq_some_iff _ _ _).mpr hmem, rfl⟩
    · cases hname
  · rintro ⟨entry, hentry, rfl⟩
    refine ⟨(p ++ [name], entry), (FinMap.get?_eq_some_iff _ _ _).mp hentry, ?_⟩
    dsimp only
    rw [List.isPrefixOf?_eq_some_iff_append_eq.mpr rfl]

/-- Every name is listed once, since every place is. -/
theorem nodup_namesIn (t : FileTree) (p : Place) : ((t.namesIn p).map Prod.fst).Nodup := by
  unfold namesIn
  -- a name and the place that it stands in determine the place that has the name
  have hkeys : t.entries.entries.Pairwise fun e e' => e.1 ≠ e'.1 :=
    List.pairwise_map.mp t.entries.nodup
  rw [List.Nodup, List.pairwise_map]
  refine List.Pairwise.filterMap _ ?_ hkeys
  rintro ⟨q, entry⟩ ⟨q', entry'⟩ hne ⟨name, type⟩ hname ⟨name', type'⟩ hname' rfl
  dsimp only at hname hname'
  split at hname
  · next first hpre =>
    split at hname'
    · next second hpre' =>
      obtain ⟨rfl, -⟩ := Prod.mk.inj (Option.some.inj hname)
      obtain ⟨rfl, -⟩ := Prod.mk.inj (Option.some.inj hname')
      apply hne
      show q = q'
      rw [← List.isPrefixOf?_eq_some_iff_append_eq.mp hpre,
        ← List.isPrefixOf?_eq_some_iff_append_eq.mp hpre']
    · cases hname'
  · cases hname

/-- In a well-formed tree these are names that a file can have. -/
theorem WellFormed.isFileName_of_mem (ht : t.WellFormed) {type : EntryType}
    (h : (name, type) ∈ t.namesIn p) : IsFileName name := by
  obtain ⟨entry, hentry, -⟩ := mem_namesIn_iff.mp h
  exact ht.plain hentry name (List.mem_append_right p (List.mem_singleton_self name))

end FileTree

end CondRegions
