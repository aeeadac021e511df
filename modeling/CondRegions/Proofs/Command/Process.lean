import CondRegions.Command.Run
import CondRegions.Proofs.Config.Layers
import CondRegions.Proofs.Emit.Tree

/-!
# Running the process command

Emitting a directory first finds the source, makes and finds the target, builds a transformer and
discovers the selected files; each of these can fail, and at most the target is made then. Only
after them files are emitted.

* `Command.run_processDirectory` — the steps, with what the tree says to each;
* `Command.process_cases` — what the command can come to;
* `Command.run_perform_of_reaches` — what it comes to once files are emitted.
-/

namespace CondRegions

open FileTree

variable {listing : FileTree → Place → List (String × EntryType)} {t t' t₁ : FileTree}

/-! ### Actions that can fail -/

theorem run_except_bind {α β : Type} (x : ExceptT Diagnostic (StateM FileTree) α)
    (f : α → ExceptT Diagnostic (StateM FileTree) β) (t : FileTree) :
    (x >>= f).run.run t = match x.run.run t with
      | (.ok a, t') => (f a).run.run t'
      | (.error d, t') => (.error d, t') := by
  rcases hx : x.run.run t with ⟨r, t'⟩
  rw [ExceptT.run_bind, FileTree.run_bind_of_run hx]
  cases r <;> rfl

namespace Command

theorem run_onPath_bind {α β : Type} (path : String) (action : StateM FileTree (Except FileError α))
    (f : α → ExceptT Diagnostic (StateM FileTree) β) (t : FileTree) :
    (onPath path action >>= f).run.run t = match action.run t with
      | (.ok a, t') => (f a).run.run t'
      | (.error e, t') => (.error (.ofFileError path e), t') := by
  rcases haction : action.run t with ⟨r, t'⟩
  have hpath : (onPath path action).run.run t = match r with
      | .ok a => (.ok a, t')
      | .error e => (.error (.ofFileError path e), t') := by
    show (action >>= _).run t = _
    rw [FileTree.run_bind_of_run haction]
    cases r <;> rfl
  rw [run_except_bind, hpath]
  cases r <;> rfl

/-! ### The steps -/

/-- The transformer of settings, as a function of the tree. -/
def transformerOn (t : FileTree) (s : Settings) : Except Diagnostic Transformer :=
  ((Config.build FileTree.host s).run t).1 >>= Transformer.ofConfig

/-- Building a transformer leaves the tree as it is, and does not depend on the order of walks. -/
theorem run_transformer (listing : FileTree → Place → List (String × EntryType)) (t : FileTree)
    (s : Settings) : (transformer (hostListing listing) s).run.run t = (transformerOn t s, t) := by
  show (ExceptT.mk (Config.build FileTree.host s) >>= _).run.run t = _
  have hbuild : (ExceptT.mk (Config.build FileTree.host s)).run.run t =
      (((Config.build FileTree.host s).run t).1, t) := by
    show (Config.build FileTree.host s).run t = _
    rw [Config.run_build]
  rw [run_except_bind, hbuild]
  unfold transformerOn
  cases ((Config.build FileTree.host s).run t).1 <;> rfl

theorem run_place (listing : FileTree → Place → List (String × EntryType)) (t : FileTree)
    (path : String) :
    ((hostListing listing).place path).run t = ((t.find path).map Prod.fst, t) := rfl

theorem hostListing_createDirs (listing : FileTree → Place → List (String × EntryType)) :
    (hostListing listing).createDirs = FileTree.host.createDirs := rfl

/-- **Emitting a directory.** The steps, with what the tree says to each. -/
theorem run_processDirectory (listing : FileTree → Place → List (String × EntryType)) (s : Settings)
    (source target : String) (t : FileTree) :
    (processDirectory (hostListing listing) s source target).run.run t =
      match t.find source with
      | .error e => (.error (.ofFileError source e), t)
      | .ok (src, _) =>
        match t.createDirs target with
        | .error e => (.error (.ofFileError target e), t)
        | .ok t₁ =>
          match t₁.find target with
          | .error e => (.error (.ofFileError target e), t₁)
          | .ok (out, _) =>
            if src = out then (.error (sameDirectory target), t₁)
            else
              match transformerOn t₁ { s with root := src.text } with
              | .error d => (.error d, t₁)
              | .ok T =>
                match (T.discover (hostListing listing) src.text (some out.text)).run t₁ with
                | (.error d, t₂) => (.error d, t₂)
                | (.ok selected, t₂) =>
                  ((emitTree (hostListing listing) T selected src out).run t₂).map
                    (fun os => .ok (emitResult os)) id := by
  unfold processDirectory
  rw [run_onPath_bind, run_place]
  cases t.find source with
  | error e => rfl
  | ok found =>
    obtain ⟨src, entry⟩ := found
    show StateT.run (ExceptT.run (onPath target _ >>= _)) t = _
    rw [run_onPath_bind, hostListing_createDirs, FileTree.run_createDirs]
    cases t.createDirs target with
    | error e => rfl
    | ok t₁ =>
      show StateT.run (ExceptT.run (onPath target _ >>= _)) t₁ = _
      rw [run_onPath_bind, run_place]
      dsimp only
      cases t₁.find target with
      | error e => rfl
      | ok found =>
        obtain ⟨out, entry'⟩ := found
        dsimp only [Except.map]
        by_cases hsame : src = out
        · rw [if_pos hsame, if_pos hsame]
          rfl
        · rw [if_neg hsame, if_neg hsame]
          show StateT.run (ExceptT.run (transformer _ _ >>= _)) t₁ = _
          rw [run_except_bind, run_transformer]
          cases transformerOn t₁ { s with root := src.text } with
          | error d => rfl
          | ok T =>
            dsimp only
            rw [run_except_bind, ExceptT.run_mk]
            rcases (T.discover (hostListing listing) src.text (some out.text)).run t₁
              with ⟨d | selected, t₂⟩ <;> rfl

/-! ### The command -/

variable {c : Command} {env : List (String × String)} {source target : String}
variable {result : CommandResult}

/-- The settings of a command in an environment, for files below a place. -/
def settingsAt (c : Command) (env : List (String × String)) (src : Place) : Settings :=
  { c.settings with processEnv := env, root := src.text }

theorem run_perform (hc : c.action = .process source target)
    (listing : FileTree → Place → List (String × EntryType))
    (env : List (String × String)) (t : FileTree) :
    (c.perform (hostListing listing) env).run t =
      match (processDirectory (hostListing listing) { c.settings with processEnv := env }
        source target).run.run t with
      | (.ok result, t') => (result, t')
      | (.error d, t') => ({ failure := some d }, t') := by
  unfold perform
  rw [hc]
  rcases hrun : (processDirectory (hostListing listing) { c.settings with processEnv := env }
    source target).run.run t with ⟨r, t'⟩
  have hact : (act (hostListing listing) { c.settings with processEnv := env }
      (.process source target)).run.run t = (r, t') := hrun
  rw [FileTree.run_bind_of_run hact]
  cases r <;> rfl

/-- The steps before the walks have all succeeded. -/
structure Reaches (c : Command) (env : List (String × String)) (source target : String)
    (t : FileTree) (src out : Place) (t₁ : FileTree) (T : Transformer) : Prop where
  found_source : t.Finds source src
  made : t.createDirs target = .ok t₁
  found_target : t₁.Finds target out
  differ : src ≠ out
  built : transformerOn t₁ (c.settingsAt env src) = .ok T

/-- **The command.** A step before files are emitted fails, and nothing is done or only the target
is made. Or the selected files are known, and files are emitted. -/
theorem process_cases (hc : c.action = .process source target)
    (h : (c.perform (hostListing listing) env).run t = (result, t')) :
    (result.failure.isSome = true ∧ (t' = t ∨ t.createDirs target = .ok t')) ∨
    (∃ src out t₁ T selected os, Reaches c env source target t src out t₁ T ∧
      (T.discover (hostListing listing) src.text (some out.text)).run t₁ = (.ok selected, t₁) ∧
      (emitTree (hostListing listing) T selected src out).run t₁ = (os, t') ∧
      result = emitResult os) := by
  rw [run_perform hc, run_processDirectory] at h
  -- in the order of the steps; the target is made from the second one on
  cases hsource : t.find source with
  | error e =>
    rw [hsource] at h
    obtain ⟨rfl, rfl⟩ := Prod.mk.inj h
    exact .inl ⟨rfl, .inl rfl⟩
  | ok found =>
    obtain ⟨src, entry⟩ := found
    cases hmade : t.createDirs target with
    | error e =>
      rw [hsource, hmade] at h
      obtain ⟨rfl, rfl⟩ := Prod.mk.inj h
      exact .inl ⟨rfl, .inl rfl⟩
    | ok t₁ =>
      simp only [hsource, hmade] at h
      cases htarget : t₁.find target with
      | error e =>
        rw [htarget] at h
        obtain ⟨rfl, rfl⟩ := Prod.mk.inj h
        exact .inl ⟨rfl, .inr rfl⟩
      | ok found =>
        obtain ⟨out, entry'⟩ := found
        simp only [htarget] at h
        by_cases hsame : src = out
        · rw [if_pos hsame] at h
          obtain ⟨rfl, rfl⟩ := Prod.mk.inj h
          exact .inl ⟨rfl, .inr rfl⟩
        · rw [if_neg hsame] at h
          cases hbuilt : transformerOn t₁ (c.settingsAt env src) with
          | error d =>
            unfold settingsAt at hbuilt
            rw [hbuilt] at h
            obtain ⟨rfl, rfl⟩ := Prod.mk.inj h
            exact .inl ⟨rfl, .inr rfl⟩
          | ok T =>
            have hreaches : Reaches c env source target t src out t₁ T :=
              ⟨⟨entry, hsource⟩, hmade, ⟨entry', htarget⟩, hsame, hbuilt⟩
            unfold settingsAt at hbuilt
            rw [hbuilt] at h
            dsimp only at h
            -- the walk that looks for selected files changes nothing
            have hkept := T.discover_keeps listing src.text (some out.text) t₁
            rcases hfound : (T.discover (hostListing listing) src.text (some out.text)).run t₁
              with ⟨d | selected, t₂⟩
            · rw [hfound] at h hkept
              obtain ⟨rfl, rfl⟩ := Prod.mk.inj h
              exact .inl ⟨rfl, .inr (congrArg _ (Eq.symm hkept))⟩
            · rw [hfound] at h hkept
              obtain rfl : t₂ = t₁ := hkept
              obtain ⟨rfl, rfl⟩ := Prod.mk.inj h
              exact .inr ⟨src, out, t₂, T, selected, _, hreaches, hfound, rfl, rfl⟩

/-- Once files are emitted, the command comes to what emitting them comes to. -/
theorem run_perform_of_reaches (hc : c.action = .process source target) {src out : Place}
    {T : Transformer} {selected : List String} {os : List FileOutcome}
    (h : Reaches c env source target t src out t₁ T)
    (hfound : (T.discover (hostListing listing) src.text (some out.text)).run t₁ =
      (.ok selected, t₁))
    (hemission : (emitTree (hostListing listing) T selected src out).run t₁ = (os, t')) :
    (c.perform (hostListing listing) env).run t = (emitResult os, t') := by
  obtain ⟨⟨entry, hsource⟩, hmade, ⟨entry', htarget⟩, hdiffer, hbuilt⟩ := h
  unfold settingsAt at hbuilt
  simp only [run_perform hc, run_processDirectory, hsource, hmade, htarget, if_neg hdiffer, hbuilt,
    hfound, hemission, Prod.map, id]

theorem failure_emitResult_iff {os : List FileOutcome} :
    (emitResult os).failure = none ↔ ∀ o ∈ os, o.error? = none := by
  show os.findSome? FileOutcome.error? = none ↔ _
  exact List.findSome?_eq_none_iff

theorem summary_emitResult {os : List FileOutcome} (h : (emitResult os).failure = none) :
    (emitResult os).summary = some (.ofOutcomes os) := by
  show (if (os.findSome? FileOutcome.error?).isSome then none else some (Summary.ofOutcomes os)) = _
  have hnone : os.findSome? FileOutcome.error? = none := h
  rw [hnone]
  rfl

end Command

end CondRegions
