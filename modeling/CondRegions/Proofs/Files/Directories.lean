import CondRegions.Proofs.Files.Access

/-!
# Making directories

Making directories puts a directory where nothing stood, and does nothing else (`FileTree.Grows`).
Along the names of a place it succeeds if no file stands on the way, and then every place on the way
is a directory.

* `FileTree.makeDirs_cases` — one piece of a path;
* `FileTree.grows_of_createDirs` — every path;
* `FileTree.exists_createDirs_text_iff`, `FileTree.get?_of_createDirs_text` — the path of a place;
* `FileTree.FindsMade` — what a path leads to once its directories are made.
-/

namespace CondRegions.FileTree

variable {t t' t'' : FileTree} {here p q : Place}

/-! ### Trees with more directories -/

/-- Having more directories: `t'` is `t` with directories at places where nothing stood. -/
structure Grows (t t' : FileTree) : Prop where
  cwd : t'.cwd = t.cwd
  kept : ∀ {p entry}, t.get? p = some entry → t'.get? p = some entry
  made : ∀ {p entry}, t'.get? p = some entry → t.get? p = some entry ∨ entry = .directory

namespace Grows

theorem refl (t : FileTree) : Grows t t :=
  ⟨rfl, id, .inl⟩

theorem trans (h : Grows t t') (h' : Grows t' t'') : Grows t t'' where
  cwd := h'.cwd.trans h.cwd
  kept hp := h'.kept (h.kept hp)
  made hp := (h'.made hp).elim h.made .inr

/-- The files are the same. -/
theorem file_iff (h : Grows t t') {bytes : ByteArray} :
    t'.get? p = some (.file bytes) ↔ t.get? p = some (.file bytes) := by
  constructor
  · intro hp
    exact (h.made hp).resolve_right nofun
  · exact h.kept

end Grows

/-- The tree with a directory at a place, unless something stands there. -/
def withDir (t : FileTree) (p : Place) : FileTree :=
  match t.get? p with
  | some _ => t
  | none => t.set p .directory

theorem get?_withDir (h : ∀ bytes, t.get? p ≠ some (.file bytes)) (q : Place) :
    (t.withDir p).get? q = if q = p then some .directory else t.get? q := by
  unfold withDir
  cases hp : t.get? p with
  | none =>
    have hne : p ≠ [] := ne_nil_of_get?_ne (by rw [hp]; exact nofun)
    exact get?_set t p .directory q hne
  | some entry =>
    cases entry with
    | file bytes => exact absurd hp (h bytes)
    | directory =>
      dsimp only
      by_cases hq : q = p
      · rw [if_pos hq, hq, hp]
      · rw [if_neg hq]

theorem grows_withDir (h : ∀ bytes, t.get? p ≠ some (.file bytes)) : Grows t (t.withDir p) where
  cwd := by
    unfold withDir
    split <;> rfl
  kept {q entry} hq := by
    rw [get?_withDir h]
    split
    · next heq =>
      subst heq
      cases entry with
      | file bytes => exact absurd hq (h bytes)
      | directory => rfl
    · exact hq
  made {q entry} hq := by
    -- what was not there before is the directory that was put there
    rw [get?_withDir h] at hq
    split at hq
    · exact .inr (Option.some.inj hq).symm
    · exact .inl hq

/-! ### Pieces of a path -/

/-- **One piece.** It means nothing, or it leads back, or it is a name, where there is a directory
then. -/
theorem makeDirs_cases {piece : String} {pieces : List String}
    (h : t.makeDirs here (piece :: pieces) = .ok t') :
    ((piece = "" ∨ piece = ".") ∧ t.makeDirs here pieces = .ok t') ∨
    (piece = ".." ∧ t.makeDirs here.dropLast pieces = .ok t') ∨
    ((piece ≠ "" ∧ piece ≠ "." ∧ piece ≠ "..") ∧ isLongName piece = false ∧
      (∀ bytes, t.get? (here ++ [piece]) ≠ some (.file bytes)) ∧
      (t.withDir (here ++ [piece])).makeDirs (here ++ [piece]) pieces = .ok t') := by
  rw [makeDirs] at h
  split at h
  · next hskip => exact .inl ⟨by simpa using hskip, h⟩
  · next hskip =>
    split at h
    · next hup => exact .inr (.inl ⟨hup, h⟩)
    · next hup =>
      split at h
      · cases h
      · next hlong =>
        have hpoint : piece ≠ "" ∧ piece ≠ "." := by simpa using hskip
        refine .inr (.inr ⟨⟨hpoint.1, hpoint.2, hup⟩, Bool.eq_false_iff.mpr hlong, ?_⟩)
        dsimp only at h
        unfold withDir
        cases hnext : t.get? (here ++ [piece]) with
        | none =>
          rw [hnext] at h
          exact ⟨nofun, h⟩
        | some entry =>
          rw [hnext] at h
          cases entry with
          | file bytes => cases h
          | directory => exact ⟨nofun, h⟩

theorem grows_of_makeDirs {pieces : List String} (h : t.makeDirs here pieces = .ok t') :
    Grows t t' := by
  -- a piece that is a name may make a directory, the others only change where the next one is
  -- looked for
  induction pieces generalizing t here with
  | nil =>
    obtain rfl := Except.ok.inj h
    exact .refl t
  | cons piece pieces ih =>
    obtain ⟨-, h⟩ | ⟨-, h⟩ | ⟨-, -, hfree, h⟩ := makeDirs_cases h
    · exact ih h
    · exact ih h
    · exact (grows_withDir hfree).trans (ih h)

/-- **Making directories.** Only directories are made, and only where nothing stood. -/
theorem grows_of_createDirs {path : String} (h : t.createDirs path = .ok t') : Grows t t' := by
  unfold createDirs at h
  split at h
  · cases h
  · exact grows_of_makeDirs h

/-! ### Names -/

theorem makeDirs_name_iff {name : String} (hname : IsFileName name) {names : Place} :
    t.makeDirs here (name :: names) = .ok t' ↔ isLongName name = false ∧
      (∀ bytes, t.get? (here ++ [name]) ≠ some (.file bytes)) ∧
      (t.withDir (here ++ [name])).makeDirs (here ++ [name]) names = .ok t' := by
  constructor
  · intro h
    obtain ⟨hskip, -⟩ | ⟨hup, -⟩ | ⟨-, h⟩ := makeDirs_cases h
    · exact absurd hskip (not_or.mpr ⟨hname.ne_empty, hname.ne_here⟩)
    · exact absurd hup hname.ne_up
    · exact h
  · rintro ⟨hshort, hfree, h⟩
    rw [makeDirs, if_neg hname.not_skipped, if_neg hname.ne_up, if_neg (by simp [hshort])]
    unfold withDir at h
    dsimp only
    cases hnext : t.get? (here ++ [name]) with
    | none =>
      rw [hnext] at h
      exact h
    | some entry =>
      rw [hnext] at h
      cases entry with
      | file bytes => exact absurd hnext (hfree bytes)
      | directory => exact h

/-- Making directories along names succeeds if no name is too long and no file stands on the way. -/
theorem exists_makeDirs_iff (hp : p.Plain) (hhere : t.get? here = some .directory) :
    (∃ t', t.makeDirs here p = .ok t') ↔ (∀ name ∈ p, isLongName name = false) ∧
      ∀ q, q <+: p → ∀ bytes, t.get? (here ++ q) ≠ some (.file bytes) := by
  induction p generalizing t here with
  | nil =>
    refine ⟨fun _ => ⟨nofun, fun q hq bytes => ?_⟩, fun _ => ⟨t, rfl⟩⟩
    rw [List.prefix_nil.mp hq, List.append_nil, hhere]
    exact nofun
  | cons name p ih =>
    obtain ⟨hname, hp⟩ := Place.plain_cons.mp hp
    -- behind the first name the files are the same, whether or not its directory is made
    have hstep : ∀ (hfree : ∀ bytes, t.get? (here ++ [name]) ≠ some (.file bytes)),
        (∃ t', (t.withDir (here ++ [name])).makeDirs (here ++ [name]) p = .ok t') ↔
          (∀ name ∈ p, isLongName name = false) ∧
            ∀ q, q <+: p → ∀ bytes, t.get? (here ++ name :: q) ≠ some (.file bytes) := by
      intro hfree
      rw [ih hp (by rw [get?_withDir hfree, if_pos rfl])]
      simp only [Ne, (grows_withDir hfree).file_iff, List.append_assoc, List.singleton_append]
    simp only [makeDirs_name_iff hname, exists_and_left, List.forall_mem_cons]
    constructor
    · rintro ⟨hshort, hfree, h⟩
      obtain ⟨hshorts, hbelow⟩ := (hstep hfree).mp h
      refine ⟨⟨hshort, hshorts⟩, fun q hq => ?_⟩
      rcases List.prefix_cons_iff.mp hq with rfl | ⟨q', rfl, hq'⟩
      · rw [List.append_nil, hhere]
        exact nofun
      · exact hbelow q' hq'
    · rintro ⟨⟨hshort, hshorts⟩, hway⟩
      have hfree : ∀ bytes, t.get? (here ++ [name]) ≠ some (.file bytes) :=
        hway [name] (List.prefix_append [name] p)
      refine ⟨hshort, hfree, (hstep hfree).mpr ⟨hshorts, fun q hq => ?_⟩⟩
      exact hway (name :: q) (List.prefix_cons_inj name |>.mpr hq)

/-- Along names, the places on the way are directories then, and all others are as before. -/
theorem get?_of_makeDirs (hp : p.Plain) (hhere : t.get? here = some .directory)
    (h : t.makeDirs here p = .ok t') (q : Place) :
    t'.get? q = if here <+: q ∧ q <+: here ++ p then some .directory else t.get? q := by
  induction p generalizing t here with
  | nil =>
    obtain rfl := Except.ok.inj h
    split
    · next hq =>
      rw [List.append_nil] at hq
      rw [List.IsPrefix.eq_of_length_le hq.2 hq.1.length_le, hhere]
    · rfl
  | cons name p ih =>
    obtain ⟨hname, hp⟩ := Place.plain_cons.mp hp
    obtain ⟨-, hfree, h⟩ := (makeDirs_name_iff hname).mp h
    rw [ih hp (by rw [get?_withDir hfree, if_pos rfl]) h, get?_withDir hfree]
    have hassoc : (here ++ [name]) ++ p = here ++ name :: p := by
      rw [List.append_assoc, List.singleton_append]
    rw [hassoc]
    by_cases hbehind : here ++ [name] <+: q ∧ q <+: here ++ name :: p
    · rw [if_pos hbehind, if_pos ⟨(List.prefix_append here [name]).trans hbehind.1, hbehind.2⟩]
    · have hne : q ≠ here ++ [name] := by
        rintro rfl
        exact hbehind ⟨List.prefix_refl _, hassoc ▸ List.prefix_append _ p⟩
      rw [if_neg hbehind, if_neg hne]
      split
      · next hq =>
        -- on the way but not behind the first name: this is where the names start
        obtain ⟨⟨r, rfl⟩, hr⟩ := hq
        rw [List.prefix_append_right_inj] at hr
        rcases List.prefix_cons_iff.mp hr with rfl | ⟨r', rfl, hr'⟩
        · rw [List.append_nil, hhere]
        · refine absurd ⟨?_, ?_⟩ hbehind
          · exact (List.prefix_append_right_inj here).mpr (List.prefix_append [name] r')
          · exact (List.prefix_append_right_inj here).mpr hr
      · rfl

/-! ### The path of a place -/

theorem createDirs_text_iff (hp : p.Plain) :
    t.createDirs p.text = .ok t' ↔ pathFault? p.text = none ∧ t.makeDirs [] p = .ok t' := by
  have hpieces : t.makeDirs [] (Path.segments p.text) = t.makeDirs [] p := by
    rw [Place.segments_text hp]
    by_cases hnil : p = []
    · subst hnil
      rfl
    · rw [if_neg hnil]
      rfl
  unfold createDirs
  rw [origin_text, hpieces]
  cases pathFault? p.text with
  | some e => exact ⟨nofun, nofun⟩
  | none => exact ⟨fun h => ⟨rfl, h⟩, fun h => h.2⟩

/-- By the path of a place directories can be made if the system accepts the path and no file stands
on the way. -/
theorem exists_createDirs_text_iff (hp : p.Plain) :
    (∃ t', t.createDirs p.text = .ok t') ↔
      p.Nameable ∧ ∀ q, q <+: p → ∀ bytes, t.get? q ≠ some (.file bytes) := by
  simp only [createDirs_text_iff hp, exists_and_left, exists_makeDirs_iff hp (get?_nil t),
    List.nil_append]
  constructor
  · rintro ⟨hfault, hshort, hfree⟩
    exact ⟨⟨hfault, hshort⟩, hfree⟩
  · rintro ⟨hnameable, hfree⟩
    exact ⟨hnameable.no_fault, hnameable.short, hfree⟩

/-- By the path of a place, it and the places above it become directories, and nothing else
changes. -/
theorem get?_of_createDirs_text (hp : p.Plain) (h : t.createDirs p.text = .ok t') (q : Place) :
    t'.get? q = if q <+: p then some .directory else t.get? q := by
  rw [get?_of_makeDirs hp (get?_nil t) ((createDirs_text_iff hp).mp h).2, List.nil_append]
  simp only [List.nil_prefix, true_and]

/-! ### What a path leads to once it is made -/

/-- Leading to a place once the directories along the path are made. -/
def FindsMade (t : FileTree) (path : String) (p : Place) : Prop :=
  ∃ t', t.createDirs path = .ok t' ∧ t'.Finds path p

theorem findsMade_iff {path : String} : t.FindsMade path p ↔
    (t.createDirs path).toOption.any (fun t' => decide (t'.Finds path p)) = true := by
  unfold FindsMade
  cases t.createDirs path with
  | error e => exact ⟨nofun, nofun⟩
  | ok t' =>
    rw [Except.toOption, Option.any_some, decide_eq_true_iff]
    constructor
    · rintro ⟨t'', ht'', h⟩
      rw [Except.ok.inj ht'']
      exact h
    · intro h
      exact ⟨t', rfl, h⟩

theorem FindsMade.eq {path : String} (h : t.FindsMade path p) (h' : t.FindsMade path q) :
    p = q := by
  obtain ⟨t₁, hmade, hfinds⟩ := h
  obtain ⟨t₂, hmade', hfinds'⟩ := h'
  obtain rfl := Except.ok.inj (hmade.symm.trans hmade')
  exact hfinds.eq hfinds'

instance (path : String) : Decidable (t.FindsMade path p) :=
  decidable_of_iff _ findsMade_iff.symm

end CondRegions.FileTree
