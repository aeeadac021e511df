import CondRegions.Emit
import CondRegions.Proofs.Files.WellFormed

/-!
# Emitting one file

A file is emitted in three steps: the directory that it goes to is made, its bytes are read, and the
target is written. Each step can fail, and what was done before it is then left behind.

Emitting a file succeeds exactly if it is ready (`FileTree.Ready`), and then nothing changes but
that the target has its bytes and the places above it are directories.

* `emitFile_cases` — what emitting a file can come to;
* `emitFile_frame` — a file that is not the target stays as it is, whatever comes of the emission;
* `emitFile_of_ready`, `ready_of_emitFile` — success.
-/

namespace CondRegions

/-! ### Bytes and outcomes -/

namespace Transformer

variable (T : Transformer) (path : String) (bytes : ByteArray)

/-- The bytes that a file is emitted with: those of its transformed text if it is selected and holds
text, else its own. -/
def emitted : ByteArray :=
  if T.selects path then
    match String.fromUTF8? bytes with
    | some text => (transform text path T.config.definitions).code.toUTF8
    | none => bytes
  else bytes

/-- What becomes of a file that can be emitted. -/
def outcome : FileOutcome :=
  if T.selects path then
    match String.fromUTF8? bytes with
    | some text => .transformed (transform text path T.config.definitions)
    | none => .copied
  else .copied

/-- A file is transformed or copied, if it is among the selected ones exactly when it is
selected. -/
theorem outcome_cases {selected : List String}
    (hlisted : selected.any (Path.same path) = T.selects path) :
    (∃ out, T.output? selected path bytes = some out ∧
      T.outcome path bytes = .transformed out ∧ T.emitted path bytes = out.code.toUTF8) ∨
    (T.output? selected path bytes = none ∧
      T.outcome path bytes = .copied ∧ T.emitted path bytes = bytes) := by
  unfold output? outcome emitted transform?
  by_cases hselects : T.selects path = true
  · rw [if_pos (hlisted.trans hselects), if_pos hselects, if_pos hselects]
    cases String.fromUTF8? bytes with
    | some text => exact .inl ⟨_, if_pos hselects, rfl, rfl⟩
    | none => exact .inr ⟨rfl, rfl, rfl⟩
  · rw [if_neg (hlisted ▸ hselects), if_neg hselects, if_neg hselects]
    exact .inr ⟨rfl, rfl, rfl⟩

@[simp]
theorem error?_outcome : (T.outcome path bytes).error? = none := by
  unfold outcome
  split
  · split <;> rfl
  · rfl

end Transformer

variable {T : Transformer} {selected : List String} {src out way p : Place} {u u' u₁ : FileTree}
variable {o : FileOutcome} {bytes : ByteArray}

/-! ### The three steps -/

/-- Emitting a file, with what the tree says to each step. -/
theorem run_emitFile (T : Transformer) (selected : List String) (src out way : Place)
    (u : FileTree) :
    (emitFile FileTree.host T selected src out way).run u =
      match u.createDirs (Place.text (out ++ way).dropLast) with
      | .error e => (.failed [] (.ofFileError (Place.text (out ++ way).dropLast) e), u)
      | .ok u₁ =>
        match u₁.readBytes (Place.text (src ++ way)) with
        | .error e => (.failed [] (.ofFileError (Place.text (src ++ way)) e), u₁)
        | .ok bytes =>
          match T.output? selected (Place.text (src ++ way)) bytes with
          | some out' =>
            match u₁.write (Place.text (out ++ way)) out'.code.toUTF8 with
            | .ok u₂ => (.transformed out', u₂)
            | .error e => (.failed out'.diagnostics (.ofFileError (Place.text (out ++ way)) e), u₁)
          | none =>
            match u₁.write (Place.text (out ++ way)) bytes with
            | .ok u₂ => (.copied, u₂)
            | .error e => (.failed [] (.ofFileError (Place.text (src ++ way)) e), u₁) := by
  unfold emitFile
  dsimp only
  rw [StateT.run_bind, FileTree.run_createDirs]
  cases u.createDirs (Place.text (out ++ way).dropLast) with
  | error e => rfl
  | ok u₁ =>
    show StateT.run (FileTree.host.readBytes _ >>= _) u₁ = _
    rw [FileTree.run_bind_of_run (FileTree.run_readBytes u₁ _)]
    dsimp only
    cases u₁.readBytes (Place.text (src ++ way)) with
    | error e => rfl
    | ok bytes =>
      dsimp only
      cases T.output? selected (Place.text (src ++ way)) bytes with
      | some out' =>
        dsimp only
        rw [StateT.run_bind, FileTree.run_write]
        cases u₁.write (Place.text (out ++ way)) out'.code.toUTF8 <;> rfl
      | none =>
        dsimp only
        rw [StateT.run_bind, FileTree.run_write]
        cases u₁.write (Place.text (out ++ way)) bytes <;> rfl

/-- **One file.** All three steps succeed, or one of them fails. A failure leaves the tree as it
was, or with the directories that were made. -/
theorem emitFile_cases (h : (emitFile FileTree.host T selected src out way).run u = (o, u')) :
    (∃ u₁ bytes content, u.createDirs (Place.text (out ++ way).dropLast) = .ok u₁ ∧
      u₁.readBytes (Place.text (src ++ way)) = .ok bytes ∧
      u₁.write (Place.text (out ++ way)) content = .ok u' ∧ o.error? = none) ∨
    (o.error?.isSome = true ∧
      (u' = u ∨ u.createDirs (Place.text (out ++ way).dropLast) = .ok u')) := by
  rw [run_emitFile] at h
  -- in the order of the steps; the first failure ends the emission
  cases hdirs : u.createDirs (Place.text (out ++ way).dropLast) with
  | error e =>
    rw [hdirs] at h
    obtain ⟨rfl, rfl⟩ := Prod.mk.inj h
    exact .inr ⟨rfl, .inl rfl⟩
  | ok u₁ =>
    rw [hdirs] at h
    dsimp only at h
    cases hread : u₁.readBytes (Place.text (src ++ way)) with
    | error e =>
      rw [hread] at h
      obtain ⟨rfl, rfl⟩ := Prod.mk.inj h
      exact .inr ⟨rfl, .inr rfl⟩
    | ok bytes =>
      rw [hread] at h
      dsimp only at h
      -- a transformed file and a copied one differ in what is written only
      split at h <;> split at h
      all_goals obtain ⟨rfl, rfl⟩ := Prod.mk.inj h
      · next hwrite => exact .inl ⟨u₁, bytes, _, rfl, hread, hwrite, rfl⟩
      · exact .inr ⟨rfl, .inr rfl⟩
      · next hwrite => exact .inl ⟨u₁, bytes, _, rfl, hread, hwrite, rfl⟩
      · exact .inr ⟨rfl, .inr rfl⟩

theorem FileTree.WellFormed.emitFile (hu : u.WellFormed) (hplain : (out ++ way).Plain)
    (h : (emitFile FileTree.host T selected src out way).run u = (o, u')) : u'.WellFormed := by
  obtain ⟨u₁, bytes, content, hdirs, -, hwrite, -⟩ | ⟨-, rfl | hdirs⟩ := emitFile_cases h
  · obtain ⟨-, habove, hfree, rfl⟩ := (FileTree.write_text_iff hplain).mp hwrite
    exact (hu.createDirs hdirs).set hplain habove hfree _
  · exact hu
  · exact hu.createDirs hdirs

/-- **Frame.** A file that is not the target is there before if and only if it is there after,
whatever comes of the emission. So is the target, if there is no file to emit. -/
theorem emitFile_frame (hsrc : (src ++ way).Plain) (hplain : (out ++ way).Plain)
    (h : (emitFile FileTree.host T selected src out way).run u = (o, u'))
    (hp : p = out ++ way → ∀ bytes, u.get? (src ++ way) ≠ some (.file bytes)) :
    u'.get? p = some (.file bytes) ↔ u.get? p = some (.file bytes) := by
  obtain ⟨u₁, bytes, content, hdirs, hread, hwrite, -⟩ | ⟨-, rfl | hdirs⟩ := emitFile_cases h
  · -- the write is at the target, and the directories made before it are no files
    have hgrows := FileTree.grows_of_createDirs hdirs
    obtain ⟨-, -, hfile⟩ := (FileTree.readBytes_text_iff hsrc).mp hread
    have hother : p ≠ out ++ way := fun heq => hp heq bytes (hgrows.file_iff.mp hfile)
    obtain ⟨-, -, hfree, rfl⟩ := (FileTree.write_text_iff hplain).mp hwrite
    rw [FileTree.get?_set _ _ _ _ (FileTree.ne_nil_of_get?_ne hfree), if_neg hother]
    exact hgrows.file_iff
  · exact Iff.rfl
  · exact (FileTree.grows_of_createDirs hdirs).file_iff

/-! ### Success -/

/-- Being ready: the file exists, the system accepts its path and those of the target and of the
target's directory, no file stands above the target, and no directory stands at it. -/
structure FileTree.Ready (t : FileTree) (src out way : Place) : Prop where
  source : (src ++ way).Nameable
  target : (out ++ way).Nameable
  dir : Place.Nameable (out ++ way).dropLast
  file : ∃ bytes, t.get? (src ++ way) = some (.file bytes)
  free_above : ∀ r : Place, r.Above (out ++ way) → ∀ bytes, t.get? r ≠ some (.file bytes)
  free : t.get? (out ++ way) ≠ some .directory

/-- What has a target with its bytes and with directories above it, and is otherwise as before. -/
structure FileTree.Gains (u u' : FileTree) (target : Place) (bytes : ByteArray) : Prop where
  wellFormed : u'.WellFormed
  get?_eq : ∀ p, u'.get? p =
    if p = target then some (.file bytes) else if p <+: target then some .directory else u.get? p

/-- **Success.** A file that is ready is emitted. -/
theorem emitFile_of_ready (hu : u.WellFormed) (hplain : (out ++ way).Plain)
    (hlisted : selected.any (Path.same (Place.text (src ++ way))) =
      T.selects (Place.text (src ++ way)))
    (hready : u.Ready src out way) (hfile : u.get? (src ++ way) = some (.file bytes)) :
    ∃ u', (emitFile FileTree.host T selected src out way).run u =
        (T.outcome (Place.text (src ++ way)) bytes, u') ∧
      u.Gains u' (out ++ way) (T.emitted (Place.text (src ++ way)) bytes) := by
  have hne : out ++ way ≠ [] := FileTree.ne_nil_of_get?_ne hready.free
  have hdirPlain : Place.Plain (out ++ way).dropLast := hplain.dropLast
  -- the directories
  obtain ⟨u₁, hdirs⟩ : ∃ u₁, u.createDirs (Place.text (out ++ way).dropLast) = .ok u₁ := by
    rw [FileTree.exists_createDirs_text_iff hdirPlain]
    refine ⟨hready.dir, fun q hq => ?_⟩
    exact hready.free_above q ((Place.above_iff_prefix_dropLast hne).mpr hq)
  have hgrows := FileTree.grows_of_createDirs hdirs
  have hu₁ : u₁.WellFormed := hu.createDirs hdirs
  have hget₁ : ∀ q, u₁.get? q = if q.Above (out ++ way) then some .directory else u.get? q := by
    intro q
    rw [FileTree.get?_of_createDirs_text hdirPlain hdirs]
    simp only [Place.above_iff_prefix_dropLast hne]
  -- the bytes
  have hread : u₁.readBytes (Place.text (src ++ way)) = .ok bytes := by
    have hfile₁ := hgrows.kept hfile
    rw [FileTree.readBytes_text_iff (hu.plain hfile)]
    exact ⟨hready.source, fun r hr => hu₁.above hfile₁ hr, hfile₁⟩
  -- the target, at which nothing changed so far
  have habove : ∀ r : Place, r.Above (out ++ way) → u₁.get? r = some .directory := by
    intro r hr
    rw [hget₁, if_pos hr]
  have hfree : u₁.get? (out ++ way) ≠ some .directory := by
    rw [hget₁, if_neg (fun h => h.2 rfl)]
    exact hready.free
  have hwrite : u₁.write (Place.text (out ++ way)) (T.emitted (Place.text (src ++ way)) bytes) =
      .ok (u₁.set (out ++ way) (.file (T.emitted (Place.text (src ++ way)) bytes))) :=
    (FileTree.write_text_iff hplain).mpr ⟨hready.target, habove, hfree, rfl⟩
  have hrun : (emitFile FileTree.host T selected src out way).run u =
      (T.outcome (Place.text (src ++ way)) bytes,
        u₁.set (out ++ way) (.file (T.emitted (Place.text (src ++ way)) bytes))) := by
    obtain ⟨out', houtput, houtcome, hemitted⟩ | ⟨houtput, houtcome, hemitted⟩ :=
      T.outcome_cases (Place.text (src ++ way)) bytes hlisted
    · rw [hemitted] at hwrite ⊢
      simp only [run_emitFile, hdirs, hread, houtput, hwrite, houtcome]
    · rw [hemitted] at hwrite ⊢
      simp only [run_emitFile, hdirs, hread, houtput, hwrite, houtcome]
  refine ⟨_, hrun, hu₁.set hplain habove hfree _, fun p => ?_⟩
  rw [FileTree.get?_set _ _ _ _ hne, hget₁]
  by_cases heq : p = out ++ way
  · rw [if_pos heq, if_pos heq]
  · rw [if_neg heq, if_neg heq]
    unfold Place.Above
    simp only [ne_eq, heq, not_false_eq_true, and_true]

/-- Only a file that is ready is emitted. -/
theorem ready_of_emitFile (hsrc : (src ++ way).Plain) (hplain : (out ++ way).Plain)
    (h : (emitFile FileTree.host T selected src out way).run u = (o, u')) (ho : o.error? = none) :
    u.Ready src out way := by
  obtain ⟨u₁, bytes, content, hdirs, hread, hwrite, -⟩ | ⟨herror, -⟩ := emitFile_cases h
  · have hgrows := FileTree.grows_of_createDirs hdirs
    obtain ⟨hdir, hway⟩ := (FileTree.exists_createDirs_text_iff hplain.dropLast).mp ⟨u₁, hdirs⟩
    obtain ⟨hsource, -, hfile⟩ := (FileTree.readBytes_text_iff hsrc).mp hread
    obtain ⟨htarget, -, hfree, -⟩ := (FileTree.write_text_iff hplain).mp hwrite
    have hne : out ++ way ≠ [] := FileTree.ne_nil_of_get?_ne hfree
    refine ⟨hsource, htarget, hdir, ⟨bytes, hgrows.file_iff.mp hfile⟩, fun r hr => ?_, fun hd => ?_⟩
    · exact hway r ((Place.above_iff_prefix_dropLast hne).mp hr)
    · exact hfree (hgrows.kept hd)
  · rw [ho] at herror
    cases herror

end CondRegions
