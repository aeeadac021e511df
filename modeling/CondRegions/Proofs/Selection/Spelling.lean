import CondRegions.Filter
import CondRegions.Proofs.Files.Place
import Mathlib.Data.List.Basic

/-!
# Spellings of a path

A path can be spelled in many ways. Repeated slashes, a slash at the end and points mean nothing:
what is left is whether the path starts at the root, and the steps from there (`Path.SameRoute`).
Paths with the same route are those with the same normal form (`Path.sameRoute_iff`), because the
normal form of a path has the route of the path (`Path.sameRoute_normalize`).

Components do not forget all of this: a point at the start of a relative path is one of them. So
whether the root of a filter is a prefix of a path can depend on the spelling of the path, and the
relative form with it. It does not for two kinds of roots.

* *The root is a point.* If the path starts with a point, the point is taken away; if it does not,
  nothing is. The normal form is the same (`FileFilter.forms_here`).
* *The root is absolute.* Then only absolute paths lie under it, and these have no point to lose
  (`Path.SameRoute.stripPrefix?_eq`).

`FileFilter.selects_spelling` is the result: such a filter takes all spellings of a path, or none.
-/

namespace CondRegions

namespace Path

/-! ### Routes -/

/-- Whether a path starts at the root. -/
def IsAbsolute (path : String) : Prop :=
  path.toList.head? = some '/'

instance (path : String) : Decidable (IsAbsolute path) :=
  inferInstanceAs (Decidable (_ = _))

/-- Whether a piece between slashes leads anywhere: it is neither empty nor a point. -/
def leads (piece : String) : Bool :=
  piece ≠ "" && piece ≠ "."

/-- **The steps of a path**: its pieces between slashes, without those that are empty and without
points. -/
def steps (path : String) : List String :=
  (segments path).filter leads

/-- **Spellings of one route.** The paths start alike and have the same steps. -/
structure SameRoute (p q : String) : Prop where
  start : IsAbsolute p ↔ IsAbsolute q
  steps_eq : steps p = steps q

instance (p q : String) : Decidable (SameRoute p q) :=
  decidable_of_iff ((IsAbsolute p ↔ IsAbsolute q) ∧ steps p = steps q)
    ⟨fun h => ⟨h.1, h.2⟩, fun h => ⟨h.start, h.steps_eq⟩⟩

theorem SameRoute.symm {p q : String} (h : SameRoute p q) : SameRoute q p :=
  ⟨h.start.symm, h.steps_eq.symm⟩

theorem SameRoute.trans {p q r : String} (h : SameRoute p q) (h' : SameRoute q r) : SameRoute p r :=
  ⟨h.start.trans h'.start, h.steps_eq.trans h'.steps_eq⟩

/-! ### Components of a route -/

/-- The component of a step. -/
def ofStep (s : String) : Component :=
  if s = ".." then .up else .name s

theorem text?_ofStep (s : String) : (ofStep s).text? = some s := by
  unfold ofStep
  split
  · next hup => rw [hup]; rfl
  · rfl

theorem ofStep_ne (s : String) : ofStep s ≠ .root ∧ ofStep s ≠ .here := by
  unfold ofStep
  split <;> exact ⟨nofun, nofun⟩

theorem ofSegment?_eq (piece : String) :
    ofSegment? piece = if leads piece then some (ofStep piece) else none := by
  unfold ofSegment? leads ofStep
  by_cases hempty : piece = ""
  · simp [hempty]
  by_cases hpoint : piece = "."
  · simp [hpoint]
  by_cases hup : piece = ".."
  · simp [hup]
  · simp [hempty, hpoint, hup]

/-- The components behind the start are those of the steps. -/
theorem filterMap_ofSegment? (pieces : List String) :
    pieces.filterMap ofSegment? = (pieces.filter leads).map ofStep := by
  induction pieces with
  | nil => rfl
  | cons piece pieces ih =>
    rw [List.filterMap_cons, List.filter_cons, ofSegment?_eq]
    cases leads piece with
    | true => exact congrArg _ ih
    | false => exact ih

/-- The pieces of a path that starts with a slash. -/
theorem segments_slash {path : String} {cs : List Char} (h : path.toList = '/' :: cs) :
    segments path = "" :: segments (String.ofList cs) := by
  unfold segments
  rw [h, String.toList_ofList, List.splitOn_cons_eq_if_modifyHead, if_pos (beq_self_eq_true '/')]
  rfl

theorem segments_ne_nil (path : String) : segments path ≠ [] := by
  unfold segments
  rw [ne_eq, List.map_eq_nil_iff]
  exact List.splitOn_ne_nil '/' path.toList

/-- **The components of an absolute path** are the root and its steps. -/
theorem components_of_isAbsolute {path : String} (h : IsAbsolute path) :
    components path = .root :: (steps path).map ofStep := by
  obtain ⟨cs, hcs⟩ := List.head?_eq_some_iff.mp h
  obtain ⟨piece, pieces, hpieces⟩ := List.exists_cons_of_ne_nil (segments_ne_nil (String.ofList cs))
  have hleading : leading path = [.root] := by
    unfold leading
    rw [segments_slash hcs, hpieces]
    rfl
  unfold components
  rw [hleading, filterMap_ofSegment?]
  rfl

/-- The first piece of a relative path is empty only if it is the last one. -/
theorem segments_ne_of_not_isAbsolute {path piece : String} {pieces : List String}
    (h : ¬ IsAbsolute path) : segments path ≠ "" :: piece :: pieces := by
  intro hpieces
  unfold segments at hpieces
  cases hcs : path.toList with
  | nil =>
    rw [hcs] at hpieces
    cases hpieces
  | cons c cs =>
    have hc : c ≠ '/' := by
      rintro rfl
      exact h (List.head?_eq_some_iff.mpr ⟨cs, hcs⟩)
    obtain ⟨first, later, hlater⟩ := List.exists_cons_of_ne_nil (List.splitOn_ne_nil '/' cs)
    rw [hcs, List.splitOn_cons_eq_if_modifyHead, if_neg (by simpa using hc), hlater] at hpieces
    -- the first character belongs to the first piece
    have hfirst := congrArg String.toList (List.cons.inj hpieces).1
    rw [String.toList_ofList] at hfirst
    cases hfirst

/-- **The components of a relative path** are its steps, with a point before them if the path starts
with one. -/
theorem components_of_not_isAbsolute {path : String} (h : ¬ IsAbsolute path) :
    components path = (steps path).map ofStep ∨
    components path = .here :: (steps path).map ofStep := by
  unfold components leading
  rw [filterMap_ofSegment?]
  split
  · next hpieces => exact absurd hpieces (segments_ne_of_not_isAbsolute h)
  · exact .inr rfl
  · exact .inl rfl

/-! ### Normal forms of a route -/

/-- Steps with slashes between them. -/
def joined (names : List String) : String :=
  String.intercalate "/" names

theorem filterMap_text? (names : List String) :
    (names.map ofStep).filterMap Component.text? = names := by
  induction names with
  | nil => rfl
  | cons s names ih => rw [List.map_cons, List.filterMap_cons_some (text?_ofStep s), ih]

/-- Neither the root nor a point is a step. -/
theorem head?_steps_ne (names : List String) :
    (names.map ofStep).head? ≠ some .root ∧ (names.map ofStep).head? ≠ some .here := by
  cases names with
  | nil => exact ⟨nofun, nofun⟩
  | cons s names =>
    obtain ⟨hroot, hhere⟩ := ofStep_ne s
    exact ⟨fun h => hroot (Option.some.inj h), fun h => hhere (Option.some.inj h)⟩

/-- Steps are written out as they are. -/
theorem render_steps (names : List String) : render (names.map ofStep) = joined names := by
  unfold render
  rw [filterMap_text?, if_neg (head?_steps_ne names).1]
  rfl

/-- A point before steps is left out. -/
theorem render_here (names : List String) : render (.here :: names.map ofStep) = joined names := by
  rw [← render_steps]
  unfold render
  rw [if_neg (head?_steps_ne names).1]
  rfl

theorem normalize_of_isAbsolute {path : String} (h : IsAbsolute path) :
    normalize path = "/" ++ joined (steps path) := by
  unfold normalize render
  rw [components_of_isAbsolute h, List.filterMap_cons_none rfl, filterMap_text?]
  rfl

theorem normalize_of_not_isAbsolute {path : String} (h : ¬ IsAbsolute path) :
    normalize path = joined (steps path) := by
  unfold normalize
  rcases components_of_not_isAbsolute h with hsteps | hhere
  · rw [hsteps, render_steps]
  · rw [hhere, render_here]

theorem SameRoute.normalize_eq {p q : String} (h : SameRoute p q) : normalize p = normalize q := by
  by_cases hp : IsAbsolute p
  · rw [normalize_of_isAbsolute hp, normalize_of_isAbsolute (h.start.mp hp), h.steps_eq]
  · rw [normalize_of_not_isAbsolute hp, normalize_of_not_isAbsolute (mt h.start.mpr hp), h.steps_eq]

/-! ### The route of a normal form -/

/-- A step is neither empty nor has a slash in it. -/
theorem of_mem_steps {path s : String} (h : s ∈ steps path) : leads s = true ∧ '/' ∉ s.toList := by
  obtain ⟨hmem, hleads⟩ := List.mem_filter.mp h
  exact ⟨hleads, not_mem_of_mem_segments hmem⟩

/-- The pieces of steps with slashes between them are the steps. -/
theorem segments_joined {names : List String} (hne : names ≠ []) (h : ∀ s ∈ names, '/' ∉ s.toList) :
    segments (joined names) = names := by
  have hsplit : (['/'].intercalate (names.map String.toList)).splitOn '/' =
      names.map String.toList := by
    refine List.splitOn_intercalate '/' ?_ (by simpa using hne)
    intro cs hcs
    obtain ⟨s, hs, rfl⟩ := List.mem_map.mp hcs
    exact h s hs
  have hid : String.ofList ∘ String.toList = id := funext fun _ => String.ofList_toList
  unfold segments joined
  rw [String.toList_intercalate]
  show ((['/'].intercalate (names.map String.toList)).splitOn '/').map String.ofList = names
  rw [hsplit, List.map_map, hid, List.map_id]

theorem steps_joined (path : String) : steps (joined (steps path)) = steps path := by
  by_cases hnil : steps path = []
  · rw [hnil]
    decide
  · have hpieces : segments (joined (steps path)) = steps path :=
      segments_joined hnil fun s hs => (of_mem_steps hs).2
    calc steps (joined (steps path))
        = (segments (joined (steps path))).filter leads := rfl
      _ = (steps path).filter leads := by rw [hpieces]
      _ = steps path := List.filter_eq_self.mpr fun s hs => (of_mem_steps hs).1

theorem not_isAbsolute_joined (path : String) : ¬ IsAbsolute (joined (steps path)) := by
  unfold IsAbsolute joined
  rw [String.toList_intercalate]
  cases hsteps : steps path with
  | nil => exact nofun
  | cons s names =>
    -- the first step has a first character, which is not a slash
    obtain ⟨hleads, hslash⟩ :=
      of_mem_steps (show s ∈ steps path by rw [hsteps]; exact List.mem_cons_self)
    obtain ⟨c, cs, hcs⟩ : ∃ c cs, s.toList = c :: cs := by
      refine List.exists_cons_of_ne_nil fun hnil => ?_
      rw [String.toList_eq_nil_iff.mp hnil] at hleads
      cases hleads
    have hc : c ≠ '/' := by
      rintro rfl
      exact hslash (by rw [hcs]; exact List.mem_cons_self)
    cases names with
    | nil => simpa [hcs] using hc
    | cons s' names => simpa [hcs] using hc

/-- **The normal form of a path** has the route of the path. -/
theorem sameRoute_normalize (path : String) : SameRoute (normalize path) path := by
  by_cases h : IsAbsolute path
  · have hcs : (normalize path).toList = '/' :: (joined (steps path)).toList := by
      rw [normalize_of_isAbsolute h, String.toList_append]
      rfl
    refine ⟨iff_of_true (List.head?_eq_some_iff.mpr ⟨_, hcs⟩) h, ?_⟩
    have hpieces : segments (normalize path) = "" :: segments (joined (steps path)) := by
      rw [segments_slash hcs, String.ofList_toList]
    -- the piece before the slash is empty
    calc steps (normalize path)
        = ("" :: segments (joined (steps path))).filter leads :=
          congrArg (List.filter leads) hpieces
      _ = steps (joined (steps path)) := List.filter_cons_of_neg (by decide)
      _ = steps path := steps_joined path
  · rw [normalize_of_not_isAbsolute h]
    exact ⟨iff_of_false (not_isAbsolute_joined path) h, steps_joined path⟩

/-- **Paths have one route** exactly if they have one normal form. -/
theorem sameRoute_iff {p q : String} : SameRoute p q ↔ normalize p = normalize q := by
  constructor
  · exact SameRoute.normalize_eq
  · intro h
    have hp := sameRoute_normalize p
    rw [h] at hp
    exact hp.symm.trans (sameRoute_normalize q)

/-! ### Paths under a root -/

/-- A relative path does not lie under an absolute root. -/
theorem stripPrefix?_of_not_isAbsolute {root path : String} (hroot : IsAbsolute root)
    (hpath : ¬ IsAbsolute path) : stripPrefix? root path = none := by
  cases hstrip : stripPrefix? root path with
  | none => rfl
  | some behind =>
    have hcomponents := List.isPrefixOf?_eq_some_iff_append_eq.mp hstrip
    rw [components_of_isAbsolute hroot] at hcomponents
    rcases components_of_not_isAbsolute hpath with hsteps | hhere
    · -- the root is not a step
      rw [hsteps] at hcomponents
      exact absurd (congrArg List.head? hcomponents).symm (head?_steps_ne (steps path)).1
    · rw [hhere] at hcomponents
      cases hcomponents

/-- **What stands behind an absolute root** depends on the route alone. -/
theorem SameRoute.stripPrefix?_eq {p q root : String} (h : SameRoute p q)
    (hroot : IsAbsolute root) : stripPrefix? root p = stripPrefix? root q := by
  by_cases hp : IsAbsolute p
  · unfold stripPrefix?
    rw [components_of_isAbsolute hp, components_of_isAbsolute (h.start.mp hp), h.steps_eq]
  · rw [stripPrefix?_of_not_isAbsolute hroot hp,
      stripPrefix?_of_not_isAbsolute hroot (mt h.start.mpr hp)]

/-- **What stands behind a point** has the normal form of the path. -/
theorem render_of_stripPrefix?_here {path : String} {behind : List Component}
    (h : stripPrefix? "." path = some behind) : render behind = normalize path := by
  have hroot : components "." = [.here] := by decide
  have hcomponents : [.here] ++ behind = components path := by
    rw [← hroot]
    exact List.isPrefixOf?_eq_some_iff_append_eq.mp h
  by_cases hpath : IsAbsolute path
  · rw [components_of_isAbsolute hpath] at hcomponents
    cases hcomponents
  rw [normalize_of_not_isAbsolute hpath]
  rcases components_of_not_isAbsolute hpath with hsteps | hhere
  · -- the point is not a step
    rw [hsteps] at hcomponents
    exact absurd (congrArg List.head? hcomponents).symm (head?_steps_ne (steps path)).2
  · rw [hhere] at hcomponents
    obtain rfl : behind = _ := (List.cons.inj hcomponents).2
    rw [render_steps]

end Path

/-! ### Selection -/

namespace FileFilter

open CondRegions.Path

/-- Where the root is a point, both forms of a path are its normal form. -/
theorem forms_here (path : String) : forms "." path = [normalize path, normalize path] := by
  unfold forms
  cases hstrip : stripPrefix? "." path with
  | none => rfl
  | some behind =>
    show [render behind, normalize path] = _
    rw [render_of_stripPrefix?_here hstrip]

/-- **The forms that are tested** are the same for all spellings, if the root is a point or
absolute. -/
theorem forms_congr {root p q : String} (hroot : root = "." ∨ IsAbsolute root) (h : SameRoute p q) :
    forms root p = forms root q := by
  rcases hroot with rfl | habsolute
  · rw [forms_here, forms_here, h.normalize_eq]
  · unfold forms
    rw [h.normalize_eq, h.stripPrefix?_eq habsolute]

/-- **Selection does not depend on the spelling.** Let the root of a filter be a point or an
absolute path. Two paths that start alike and have the same steps have the same normal form, and
conversely; and the filter takes both or neither. So the spellings of a path with a point or a slash
too many are taken alike, whatever the globs are. -/
theorem selects_spelling (f : FileFilter) (hroot : f.root = "." ∨ IsAbsolute f.root) :
    (∀ p q, (SameRoute p q ↔ normalize p = normalize q) ∧
      (SameRoute p q → f.selects p = f.selects q)) ∧
    ∀ p ∈ ["./src/a.js", "src//a.js", "src/./a.js"], f.selects p = f.selects "src/a.js" := by
  have hselects : ∀ {p q}, SameRoute p q → f.selects p = f.selects q := by
    intro p q h
    unfold selects
    rw [forms_congr hroot h, h.normalize_eq]
  refine ⟨fun p q => ⟨sameRoute_iff, hselects⟩, fun p hp => hselects ?_⟩
  have hall : ∀ p ∈ ["./src/a.js", "src//a.js", "src/./a.js"], SameRoute p "src/a.js" := by decide
  exact hall p hp

/-- The theorem at a filter whose exclude pattern has a point in it. Only one of the two spellings
has the root as a prefix, and the pattern leaves both out. -/
theorem selects_spelling_point :
    ∃ f, ofPatterns "." ["**/*.js"] ["./src/*"] = .ok f ∧
      stripPrefix? f.root "./src/.//a.js/" ≠ none ∧ stripPrefix? f.root "src/a.js" = none ∧
      f.selects "./src/.//a.js/" = f.selects "src/a.js" ∧ f.selects "src/a.js" = false := by
  obtain ⟨f, hf, hroot, hleft⟩ : ∃ f, ofPatterns "." ["**/*.js"] ["./src/*"] = .ok f ∧
      f.root = "." ∧ f.selects "src/a.js" = false :=
    ⟨_, rfl, rfl, by decide +kernel⟩
  obtain ⟨hroutes, -⟩ := selects_spelling f (.inl hroot)
  refine ⟨f, hf, ?_, ?_, (hroutes _ _).2 (by decide), hleft⟩
  · rw [hroot]
    decide
  · rw [hroot]
    decide

end FileFilter

end CondRegions
