import CondRegions.Proofs.Files.Place
import CondRegions.Proofs.Files.Reading

/-!
# Access by place

The path of a place is followed through every place above it. So it leads to that place and to no
other, if it leads anywhere (`FileTree.resolve_text_iff`), and reading and writing by it are about
what stands there (`FileTree.readBytes_text_iff`, `FileTree.write_text_iff`). Any path leads to at
most one place (`FileTree.Finds`).
-/

namespace CondRegions.FileTree

variable {t : FileTree} {p : Place}

@[simp]
theorem get?_nil (t : FileTree) : t.get? [] = some .directory := rfl

theorem ne_nil_of_get?_ne (h : t.get? p ≠ some .directory) : p ≠ [] := by
  rintro rfl
  exact h rfl

/-- The tree with the given entries, of which the later ones count. -/
def ofEntries (entries : List (Place × Entry)) : FileTree :=
  entries.foldl (fun t e => t.set e.1 e.2) .empty

/-! ### Following names -/

/-- A name is followed from a directory to what has the name there. -/
theorem follow_name_iff {name : String} (hname : IsFileName name) {here q names : Place} :
    t.follow here (name :: names) = .ok q ↔ t.get? here = some .directory ∧
      isLongName name = false ∧ t.follow (here ++ [name]) names = .ok q := by
  rw [follow]
  cases hhere : t.get? here with
  | none => exact ⟨nofun, nofun⟩
  | some entry =>
    cases entry with
    | file bytes => exact ⟨nofun, nofun⟩
    | directory =>
      dsimp only
      rw [if_neg hname.not_skipped, if_neg hname.ne_up]
      cases isLongName name with
      | true => exact ⟨nofun, nofun⟩
      | false => exact ⟨fun h => ⟨rfl, rfl, h⟩, fun h => h.2.2⟩

/-- **Following names.** It succeeds if no name is too long and every place on the way is a
directory, and then leads to the place with these names. -/
theorem follow_names_iff (hp : p.Plain) {here q : Place} :
    t.follow here p = .ok q ↔ q = here ++ p ∧ (∀ name ∈ p, isLongName name = false) ∧
      ∀ r : Place, r.Above p → t.get? (here ++ r) = some .directory := by
  -- the first name is followed from `here`, the others from the place with that name
  induction p generalizing here with
  | nil =>
    unfold follow
    rw [List.append_nil]
    constructor
    · intro h
      exact ⟨(Except.ok.inj h).symm, nofun, fun r hr => absurd hr (Place.not_above_nil r)⟩
    · rintro ⟨rfl, -⟩
      rfl
  | cons name p ih =>
    obtain ⟨hname, hp⟩ := Place.plain_cons.mp hp
    rw [follow_name_iff hname, ih hp, List.forall_mem_cons, List.append_assoc,
      List.singleton_append]
    constructor
    · rintro ⟨hhere, hshort, rfl, hshorts, habove⟩
      refine ⟨rfl, ⟨hshort, hshorts⟩, fun r hr => ?_⟩
      rcases Place.above_cons_iff.mp hr with rfl | ⟨r', rfl, hr'⟩
      · rw [List.append_nil, hhere]
      · rw [← habove r' hr', List.append_assoc, List.singleton_append]
    · rintro ⟨rfl, ⟨hshort, hshorts⟩, habove⟩
      refine ⟨?_, hshort, rfl, hshorts, fun r hr => ?_⟩
      · rw [← habove [] (Place.above_cons_iff.mpr (.inl rfl)), List.append_nil]
      · rw [List.append_assoc, List.singleton_append]
        exact habove (name :: r) (Place.above_cons_iff.mpr (.inr ⟨r, rfl, hr⟩))

/-! ### The path of a place -/

theorem origin_text (t : FileTree) (p : Place) : t.origin p.text = [] := by
  unfold origin
  rw [if_pos]
  rw [String.startsWith_string_iff, Place.toList_text]
  exact ⟨_, rfl⟩

/-- The empty piece in front of the first slash stays at the root, and so does one behind it. -/
theorem follow_segments_text (hp : p.Plain) :
    t.follow [] (Path.segments p.text) = t.follow [] p := by
  rw [Place.segments_text hp]
  by_cases hnil : p = []
  · subst hnil
    rfl
  · rw [if_neg hnil]
    rfl

/-- **Resolution.** The path of a place leads to that place, if the system accepts it and every
place above is a directory. -/
theorem resolve_text_iff (hp : p.Plain) {q : Place} :
    t.resolve p.text = .ok q ↔ q = p ∧ p.Nameable ∧
      ∀ r : Place, r.Above p → t.get? r = some .directory := by
  unfold resolve
  have hne : p.text ≠ "" := by
    intro h
    have hchars := Place.toList_text p
    rw [h] at hchars
    cases hchars
  cases hfault : pathFault? p.text with
  | some e =>
    refine ⟨nofun, ?_⟩
    rintro ⟨-, hnameable, -⟩
    rw [hnameable.no_fault] at hfault
    cases hfault
  | none =>
    dsimp only
    rw [if_neg hne, origin_text, follow_segments_text hp, follow_names_iff hp]
    constructor
    · rintro ⟨rfl, hshort, habove⟩
      exact ⟨rfl, ⟨hfault, hshort⟩, habove⟩
    · rintro ⟨rfl, hnameable, habove⟩
      exact ⟨rfl, hnameable.short, habove⟩

theorem find_text_iff (hp : p.Plain) {q : Place} {entry : Entry} :
    t.find p.text = .ok (q, entry) ↔ q = p ∧ p.Nameable ∧
      (∀ r : Place, r.Above p → t.get? r = some .directory) ∧ t.get? p = some entry := by
  unfold find
  cases hresolve : t.resolve p.text with
  | error e =>
    refine ⟨nofun, ?_⟩
    rintro ⟨-, hnameable, habove, -⟩
    rw [(resolve_text_iff hp).mpr ⟨rfl, hnameable, habove⟩] at hresolve
    cases hresolve
  | ok q' =>
    obtain ⟨rfl, hnameable, habove⟩ := (resolve_text_iff hp).mp hresolve
    dsimp only [bind, Except.bind]
    cases hentry : t.get? q' with
    | none =>
      refine ⟨nofun, ?_⟩
      rintro ⟨-, -, -, hsome⟩
      cases hsome
    | some entry' =>
      constructor
      · intro h
        obtain ⟨rfl, rfl⟩ := Prod.mk.inj (Except.ok.inj h)
        exact ⟨rfl, hnameable, habove, rfl⟩
      · rintro ⟨rfl, -, -, hsome⟩
        rw [Option.some.inj hsome]
        rfl

theorem readBytes_text_iff (hp : p.Plain) {bytes : ByteArray} :
    t.readBytes p.text = .ok bytes ↔ p.Nameable ∧
      (∀ r : Place, r.Above p → t.get? r = some .directory) ∧ t.get? p = some (.file bytes) := by
  rw [readBytes_eq_ok_iff]
  constructor
  · rintro ⟨q, hq⟩
    exact ((find_text_iff hp).mp hq).2
  · intro h
    exact ⟨p, (find_text_iff hp).mpr ⟨rfl, h⟩⟩

/-- **Writing.** By the path of a place a file is written there, where no directory may stand. -/
theorem write_text_iff (hp : p.Plain) {bytes : ByteArray} {t' : FileTree} :
    t.write p.text bytes = .ok t' ↔ p.Nameable ∧
      (∀ r : Place, r.Above p → t.get? r = some .directory) ∧
      t.get? p ≠ some .directory ∧ t' = t.set p (.file bytes) := by
  unfold write
  cases hresolve : t.resolve p.text with
  | error e =>
    refine ⟨nofun, ?_⟩
    rintro ⟨hnameable, habove, -⟩
    rw [(resolve_text_iff hp).mpr ⟨rfl, hnameable, habove⟩] at hresolve
    cases hresolve
  | ok q =>
    obtain ⟨rfl, hnameable, habove⟩ := (resolve_text_iff hp).mp hresolve
    dsimp only [bind, Except.bind]
    by_cases hdir : t.get? q = some .directory
    · rw [hdir]
      refine ⟨nofun, ?_⟩
      rintro ⟨-, -, hfree, -⟩
      exact absurd rfl hfree
    · split
      · next h => exact absurd h hdir
      · constructor
        · intro h
          exact ⟨hnameable, habove, hdir, (Except.ok.inj h).symm⟩
        · rintro ⟨-, -, -, rfl⟩
          rfl

/-! ### What a path leads to -/

/-- Leading to something: a path leads to a place at which something stands. -/
def Finds (t : FileTree) (path : String) (p : Place) : Prop :=
  ∃ entry, t.find path = .ok (p, entry)

theorem finds_iff {path : String} :
    t.Finds path p ↔ (t.find path).toOption.map Prod.fst = some p := by
  unfold Finds
  cases t.find path with
  | error e => exact ⟨nofun, nofun⟩
  | ok found =>
    obtain ⟨q, entry⟩ := found
    constructor
    · rintro ⟨entry', h⟩
      exact congrArg some (Prod.mk.inj (Except.ok.inj h)).1
    · intro h
      obtain rfl := Option.some.inj h
      exact ⟨entry, rfl⟩

instance (path : String) : Decidable (t.Finds path p) :=
  decidable_of_iff _ finds_iff.symm

theorem Finds.eq {path : String} {q : Place} (h : t.Finds path p) (h' : t.Finds path q) :
    p = q := by
  rw [finds_iff] at h h'
  exact Option.some.inj (h.symm.trans h')

/-- What is found stands where it is found. -/
theorem Finds.get?_eq {path : String} (h : t.Finds path p) : ∃ entry, t.get? p = some entry := by
  obtain ⟨entry, h⟩ := h
  unfold find at h
  cases hresolve : t.resolve path with
  | error e =>
    rw [hresolve] at h
    cases h
  | ok q =>
    rw [hresolve] at h
    dsimp only [bind, Except.bind] at h
    cases hentry : t.get? q with
    | none =>
      rw [hentry] at h
      cases h
    | some entry' =>
      rw [hentry] at h
      obtain ⟨rfl, -⟩ := Prod.mk.inj (Except.ok.inj h)
      exact ⟨entry', hentry⟩

/-! ### Actions -/

theorem run_readBytes (t : FileTree) (path : String) :
    (FileTree.host.readBytes path).run t = (t.readBytes path, t) := rfl

/-- A change that fails leaves the tree as it is. -/
theorem run_createDirs (t : FileTree) (path : String) :
    (FileTree.host.createDirs path).run t = match t.createDirs path with
      | .ok t' => (.ok (), t')
      | .error e => (.error e, t) := rfl

theorem run_write (t : FileTree) (path : String) (bytes : ByteArray) :
    (FileTree.host.write path bytes).run t = match t.write path bytes with
      | .ok t' => (.ok (), t')
      | .error e => (.error e, t) := rfl

end CondRegions.FileTree
