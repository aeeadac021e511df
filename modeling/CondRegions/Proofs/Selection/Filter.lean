import CondRegions.Filter
import CondRegions.Proofs.Selection.Glob

/-!
# Which paths a filter selects

A filter is made from two lists of patterns and tests two forms of a path. What it selects is said
here by the meaning of the patterns (`Glob.Denotes`) and by the components of the path
(`FileFilter.IsForm`): a path in normal form, and, if the components of the root are its first ones,
the components behind them written out.

* `FileFilter.forms_iff` — the forms that are tested are these;
* `FileFilter.GlobsOf.anyMatch_iff` — some glob of a list matches exactly if some pattern of the
  list means the text;
* `FileFilter.selects_iff` — what is selected.
-/

namespace CondRegions.FileFilter

/-! ### Patterns that compile -/

/-- The globs of patterns, in order. -/
def GlobsOf (limit : Glob.Limit) (patterns : List String) (globs : List Glob) : Prop :=
  List.Forall₂ (fun pattern g => Glob.ofPattern limit pattern = .ok g) patterns globs

namespace GlobsOf

variable {limit : Glob.Limit} {patterns : List String} {globs : List Glob}

/-- Patterns that all compile have globs. -/
theorem of_mapM (h : patterns.mapM (Glob.ofPattern limit) = .ok globs) :
    GlobsOf limit patterns globs := by
  induction patterns generalizing globs with
  | nil =>
    obtain rfl := Except.ok.inj h
    exact .nil
  | cons pattern patterns ih =>
    rw [List.mapM_cons] at h
    cases hfirst : Glob.ofPattern limit pattern with
    | error e =>
      rw [hfirst] at h
      cases h
    | ok g =>
      cases hlater : patterns.mapM (Glob.ofPattern limit) with
      | error e =>
        rw [hfirst, hlater] at h
        cases h
      | ok later =>
        rw [hfirst, hlater] at h
        obtain rfl := Except.ok.inj h
        exact .cons hfirst (ih hlater)

theorem exists_glob (h : GlobsOf limit patterns globs) {pattern : String}
    (hpattern : pattern ∈ patterns) : ∃ g, Glob.ofPattern limit pattern = .ok g := by
  induction h with
  | nil => exact absurd hpattern List.not_mem_nil
  | cons hglob _ ih =>
    rcases List.mem_cons.mp hpattern with rfl | hlater
    · exact ⟨_, hglob⟩
    · exact ih hlater

/-- **Some glob matches some text** exactly if some pattern means some text. -/
theorem anyMatch_iff (h : GlobsOf limit patterns globs) (texts : List String) :
    anyMatch globs texts = true ↔
      ∃ pattern ∈ patterns, ∃ text ∈ texts, Glob.Denotes pattern text := by
  induction h with
  | nil => exact iff_of_false Bool.false_ne_true nofun
  | @cons pattern g patterns globs hglob _ ih =>
    have hfirst : (texts.any g.isMatch) = true ↔ ∃ text ∈ texts, Glob.Denotes pattern text := by
      rw [List.any_eq_true]
      exact exists_congr fun text => and_congr_right fun _ => Glob.isMatch_ofPattern_iff hglob text
    show (texts.any g.isMatch || anyMatch globs texts) = true ↔ _
    rw [Bool.or_eq_true, hfirst, ih, List.exists_mem_cons_iff]

end GlobsOf

/-- A filter is made of the globs of its patterns. -/
theorem globsOf_ofPatterns {limit : Glob.Limit} {root : String} {included excluded : List String}
    {f : FileFilter} (h : ofPatterns root included excluded limit = .ok f) :
    f.root = root ∧ GlobsOf limit included f.included ∧ GlobsOf limit excluded f.excluded := by
  unfold ofPatterns at h
  cases hincluded : included.mapM (Glob.ofPattern limit) with
  | error e =>
    rw [hincluded] at h
    cases h
  | ok globs =>
    cases hexcluded : excluded.mapM (Glob.ofPattern limit) with
    | error e =>
      rw [hincluded, hexcluded] at h
      cases h
    | ok globs' =>
      rw [hincluded, hexcluded] at h
      obtain rfl := Except.ok.inj h
      exact ⟨rfl, .of_mapM hincluded, .of_mapM hexcluded⟩

/-! ### Forms of a path -/

/-- **Forms of a path.** Its normal form, and, if it lies under the root, what is behind the root in
normal form. -/
def IsForm (root path form : String) : Prop :=
  form = Path.normalize path ∨
    ∃ behind, Path.components path = Path.components root ++ behind ∧ form = Path.render behind

/-- The forms that are tested. A path that does not lie under the root is tested in one form
only. -/
theorem forms_iff {root path form : String} : form ∈ forms root path ↔ IsForm root path form := by
  unfold forms IsForm
  rw [List.mem_pair, or_comm]
  cases hstrip : Path.stripPrefix? root path with
  | some behind =>
    have hcomponents := List.isPrefixOf?_eq_some_iff_append_eq.mp hstrip
    refine or_congr_right ⟨fun hform => ⟨behind, hcomponents.symm, hform⟩, ?_⟩
    -- what is behind the root is determined by the path
    rintro ⟨behind', heq, hform⟩
    rw [← hcomponents] at heq
    rwa [← List.append_cancel_left heq] at hform
  | none =>
    have hnot : ¬ ∃ behind, Path.components path = Path.components root ++ behind ∧
        form = Path.render behind := by
      rintro ⟨behind, heq, -⟩
      have hsome := List.isPrefixOf?_eq_some_iff_append_eq.mpr heq.symm
      rw [show List.isPrefixOf? _ _ = none from hstrip] at hsome
      cases hsome
    rw [or_iff_left hnot]
    exact or_self_iff

/-! ### Selection -/

/-- **Selection.** Let the patterns of a filter compile, whatever the limit is. Each of its globs
matches a text exactly if the pattern means it: the pattern, without one point and slash at its
start, is read from left to right as pieces, and the text is made up of parts that these take. A
path is selected exactly if it has no null character, no pattern of the exclude list means one of
its forms, and some pattern of the include list does. -/
theorem selects_iff (limit : Glob.Limit) (root : String) (included excluded : List String)
    (f : FileFilter) (h : ofPatterns root included excluded limit = .ok f) :
    (∀ pattern ∈ included ++ excluded, ∃ g, Glob.ofPattern limit pattern = .ok g ∧
      ∀ text, g.isMatch text = true ↔ Glob.Denotes pattern text) ∧
    ∀ path, f.selects path = true ↔
      '\x00' ∉ (Path.normalize path).toList ∧
      (∀ pattern ∈ excluded, ∀ form, IsForm root path form → ¬ Glob.Denotes pattern form) ∧
      ∃ pattern ∈ included, ∃ form, IsForm root path form ∧ Glob.Denotes pattern form := by
  obtain ⟨hroot, hincluded, hexcluded⟩ := globsOf_ofPatterns h
  constructor
  · intro pattern hpattern
    obtain ⟨g, hg⟩ : ∃ g, Glob.ofPattern limit pattern = .ok g :=
      (List.mem_append.mp hpattern).elim hincluded.exists_glob hexcluded.exists_glob
    exact ⟨g, hg, Glob.isMatch_ofPattern_iff hg⟩
  · intro path
    unfold selects
    dsimp only
    rw [hroot, Bool.and_eq_true, Bool.and_eq_true, Bool.not_eq_true', Bool.not_eq_true',
      hincluded.anyMatch_iff, ← Bool.not_eq_true, ← Bool.not_eq_true, hexcluded.anyMatch_iff,
      List.contains_iff_mem, and_assoc]
    simp only [forms_iff, not_exists, not_and]

/-- The theorem at patterns whose stars overlap. The first path lies under the root and is written
with a point and an empty segment; the second one is taken by the same include pattern, so the
exclude pattern leaves it out. -/
theorem selects_iff_overlapping :
    ∃ f, ofPatterns "/p" ["src/***?.ts"] ["./**/**gen**/*"] = .ok f ∧
      f.selects "/p/./src//a/b.ts" = true ∧ f.selects "/p/src/gen/b.ts" = false ∧
      (∃ form, IsForm "/p" "/p/./src//a/b.ts" form ∧ Glob.Denotes "src/***?.ts" form) ∧
      ∃ form, IsForm "/p" "/p/src/gen/b.ts" form ∧ Glob.Denotes "./**/**gen**/*" form := by
  obtain ⟨f, hf, htaken, hleft⟩ :
      ∃ f, ofPatterns "/p" ["src/***?.ts"] ["./**/**gen**/*"] = .ok f ∧
        f.selects "/p/./src//a/b.ts" = true ∧ f.selects "/p/src/gen/b.ts" = false :=
    ⟨_, rfl, by decide +kernel, by decide +kernel⟩
  obtain ⟨hmeaning, hiff⟩ := selects_iff .standard "/p" ["src/***?.ts"] ["./**/**gen**/*"] f hf
  refine ⟨f, hf, htaken, hleft, ?_, ?_⟩
  · obtain ⟨-, -, pattern, hpattern, hform⟩ := (hiff _).mp htaken
    rwa [List.mem_singleton.mp hpattern] at hform
  · obtain ⟨g, hg, hmatch⟩ := hmeaning "./**/**gen**/*" (by decide)
    obtain rfl := Except.ok.inj hg
    exact ⟨"src/gen/b.ts",
      .inr ⟨[.name "src", .name "gen", .name "b.ts"], by decide +kernel, by decide +kernel⟩,
      (hmatch _).mp (by decide +kernel)⟩

end CondRegions.FileFilter
