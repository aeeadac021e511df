import CondRegions.Files.Tree
import CondRegions.Files.Walk
import Mathlib.Data.List.Basic
import Mathlib.Data.List.Induction

/-!
# Places and their paths

The absolute path of a place leads back to that place, if every name on the way is one that a file
can have: not empty, not one or two points, and without a slash.

* `Path.not_mem_of_mem_segments` — the pieces of a path have no slash;
* `Place.segments_text` — the pieces of the path of a place are its names, behind the slash at the
  start;
* `Place.join_text`, `Place.descend_text` — names put behind the path of a place;
* `Place.same_text_iff` — places are told apart by their paths;
* `Place.above_cons_iff`, `Place.above_iff_prefix_dropLast` — the places above a place.
-/

namespace CondRegions

/-- The names that a file can have. -/
structure IsFileName (name : String) : Prop where
  ne_empty : name ≠ ""
  ne_here : name ≠ "."
  ne_up : name ≠ ".."
  no_slash : '/' ∉ name.toList

theorem isFileName_iff {name : String} :
    IsFileName name ↔ name ≠ "" ∧ name ≠ "." ∧ name ≠ ".." ∧ '/' ∉ name.toList :=
  ⟨fun h => ⟨h.ne_empty, h.ne_here, h.ne_up, h.no_slash⟩, fun ⟨h₁, h₂, h₃, h₄⟩ => ⟨h₁, h₂, h₃, h₄⟩⟩

instance (name : String) : Decidable (IsFileName name) :=
  decidable_of_iff _ isFileName_iff.symm

theorem IsFileName.not_skipped {name : String} (h : IsFileName name) :
    ¬ (name = "" || name = ".") = true := by
  simp [h.ne_empty, h.ne_here]

/-! ### Pieces -/

theorem not_mem_of_mem_splitOn {cs piece : List Char} (h : piece ∈ cs.splitOn '/') :
    '/' ∉ piece := by
  induction cs generalizing piece with
  | nil =>
    rw [List.splitOn_nil, List.mem_singleton] at h
    rw [h]
    exact List.not_mem_nil
  | cons c cs ih =>
    rw [List.splitOn_cons_eq_if_modifyHead] at h
    by_cases hc : c = '/'
    · -- the slash ends an empty piece
      rw [if_pos (by simpa using hc)] at h
      rcases List.mem_cons.mp h with rfl | hlater
      · exact List.not_mem_nil
      · exact ih hlater
    · rw [if_neg (by simpa using hc)] at h
      cases hpieces : cs.splitOn '/' with
      | nil => exact absurd hpieces (List.splitOn_ne_nil '/' cs)
      | cons first later =>
        rw [hpieces] at ih h
        rcases List.mem_cons.mp h with rfl | hlater
        · rw [List.mem_cons, not_or]
          exact ⟨Ne.symm hc, ih List.mem_cons_self⟩
        · exact ih (List.mem_cons_of_mem first hlater)

/-- A piece of a path has no slash. -/
theorem Path.not_mem_of_mem_segments {path piece : String} (h : piece ∈ Path.segments path) :
    '/' ∉ piece.toList := by
  obtain ⟨cs, hcs, rfl⟩ := List.mem_map.mp h
  rw [String.toList_ofList]
  exact not_mem_of_mem_splitOn hcs

namespace Place

/-- Whether every name is one that a file can have. -/
def Plain (p : Place) : Prop :=
  ∀ name ∈ p, IsFileName name

instance (p : Place) : Decidable p.Plain :=
  inferInstanceAs (Decidable (∀ name ∈ p, IsFileName name))

theorem plain_nil : Plain [] :=
  nofun

theorem plain_append {p q : Place} : Plain (p ++ q) ↔ p.Plain ∧ q.Plain :=
  List.forall_mem_append

theorem plain_cons {name : String} {p : Place} : Plain (name :: p) ↔ IsFileName name ∧ p.Plain :=
  List.forall_mem_cons

theorem Plain.dropLast {p : Place} (h : p.Plain) : Plain p.dropLast :=
  fun name hname => h name ((List.dropLast_sublist p).subset hname)

theorem toList_text (p : Place) :
    p.text.toList = '/' :: ['/'].intercalate (p.map String.toList) := by
  unfold text
  rw [String.toList_append, String.toList_intercalate]
  rfl

/-- **Pieces of the path of a place.** They are the names, behind the empty piece in front of the
first slash; the root has another empty piece behind its slash. -/
theorem segments_text {p : Place} (hp : p.Plain) :
    Path.segments p.text = "" :: if p = [] then [""] else p := by
  unfold Path.segments
  rw [toList_text]
  by_cases hnil : p = []
  · subst hnil
    rfl
  · have hsplit : (['/'].intercalate (p.map String.toList)).splitOn '/' = p.map String.toList := by
      refine List.splitOn_intercalate '/' ?_ (by simpa using hnil)
      intro cs hcs
      obtain ⟨name, hname, rfl⟩ := List.mem_map.mp hcs
      exact (hp name hname).no_slash
    rw [List.splitOn_cons_eq_if_modifyHead, if_pos (beq_self_eq_true '/'), hsplit, if_neg hnil,
      List.map_cons, List.map_map]
    have hid : (String.ofList ∘ String.toList) = id := funext fun _ => String.ofList_toList
    rw [hid, List.map_id]

/-- The path of a place with one more name. -/
theorem text_concat (p : Place) (name : String) :
    Place.text (p ++ [name]) = (if p = [] then "/" else p.text ++ "/") ++ name := by
  unfold text
  by_cases hnil : p = []
  · subst hnil
    rw [if_pos rfl, List.nil_append, String.intercalate_singleton]
  · rw [if_neg hnil, String.intercalate_append_of_ne_nil hnil (List.cons_ne_nil name []),
      String.intercalate_singleton, String.append_assoc, String.append_assoc, String.append_assoc]

/-- A path ends in a slash only if it is that of the root. -/
theorem endsWith_text_iff {p : Place} (hp : p.Plain) : p.text.endsWith "/" = true ↔ p = [] := by
  rw [String.endsWith_eq_endsWith_toSlice, String.Slice.endsWith_string_iff, String.copy_toSlice]
  constructor
  · intro hslash
    by_contra hnil
    obtain ⟨q, name, rfl⟩ : ∃ q name, p = q ++ [name] :=
      ⟨_, _, (List.dropLast_concat_getLast hnil).symm⟩
    have hname : IsFileName name := hp name (List.mem_append_right q (List.mem_singleton_self name))
    -- the last character is one of the last name
    rw [text_concat, String.toList_append] at hslash
    have hchars : name.toList ≠ [] := fun h => hname.ne_empty (String.toList_eq_nil_iff.mp h)
    obtain ⟨cs, c, hcs⟩ : ∃ cs c, name.toList = cs ++ [c] :=
      ⟨_, _, (List.dropLast_concat_getLast hchars).symm⟩
    rw [hcs, ← List.append_assoc] at hslash
    have hlast : '/' = c := by simpa using hslash.getLast (List.cons_ne_nil _ _)
    apply hname.no_slash
    rw [hcs, hlast]
    exact List.mem_append_right cs (List.mem_singleton_self c)
  · rintro rfl
    exact List.suffix_refl _

/-- A name put behind the path of a place gives the path of the place with this name in it. -/
theorem join_text {p : Place} (hp : p.Plain) {name : String} (hname : IsFileName name) :
    Path.join p.text name = Place.text (p ++ [name]) := by
  have hstart : ¬ name.startsWith "/" = true := by
    rw [String.startsWith_string_iff]
    intro hslash
    exact hname.no_slash (hslash.subset (List.mem_singleton_self '/'))
  have hne : p.text ≠ "" := by
    intro h
    have hchars := toList_text p
    rw [h] at hchars
    cases hchars
  unfold Path.join
  rw [if_neg (by simp [hne, hstart]), text_concat]
  simp only [endsWith_text_iff hp]
  split
  · next hnil => rw [hnil]; rfl
  · rfl

theorem descend_text {p way : Place} (hp : p.Plain) (hway : way.Plain) :
    Path.descend p.text way = Place.text (p ++ way) := by
  unfold Path.descend
  induction way generalizing p with
  | nil => rw [List.append_nil, List.foldl_nil]
  | cons name way ih =>
    obtain ⟨hname, hway⟩ := plain_cons.mp hway
    have hnext : Plain (p ++ [name]) := plain_append.mpr ⟨hp, plain_cons.mpr ⟨hname, plain_nil⟩⟩
    rw [List.foldl_cons, join_text hp hname, ih hnext hway, List.append_assoc,
      List.singleton_append]

/-- **Components of the path of a place**: the root and the names. -/
theorem components_text {p : Place} (hp : p.Plain) :
    Path.components p.text = .root :: p.map .name := by
  have hnames : p.filterMap Path.ofSegment? = p.map .name := by
    rw [← List.filterMap_eq_map]
    refine List.filterMap_congr fun name hname => ?_
    unfold Path.ofSegment?
    rw [if_neg (hp name hname).not_skipped, if_neg (hp name hname).ne_up]
    rfl
  unfold Path.components Path.leading
  rw [segments_text hp]
  by_cases hnil : p = []
  · subst hnil
    rfl
  · obtain ⟨name, names, hcons⟩ := List.exists_cons_of_ne_nil hnil
    rw [if_neg hnil, List.filterMap_cons_none rfl, hnames, hcons]
    rfl

/-- Places are told apart by their paths. -/
theorem same_text_iff {p q : Place} (hp : p.Plain) (hq : q.Plain) :
    Path.same p.text q.text = true ↔ p = q := by
  unfold Path.same
  rw [beq_iff_eq, components_text hp, components_text hq, List.cons.injEq,
    and_iff_right rfl, List.map_inj_right fun _ _ => Path.Component.name.inj]

/-- Whether the system accepts the path of a place: it has no null character and is not too long,
and neither is any name. -/
structure Nameable (p : Place) : Prop where
  no_fault : FileTree.pathFault? p.text = none
  short : ∀ name ∈ p, FileTree.isLongName name = false

/-- Every name takes two bytes at least, with the slash before it. -/
theorem length_le_of_plain {p : Place} (hp : p.Plain) : 2 * p.length ≤ p.text.utf8ByteSize := by
  induction p using List.reverseRecOn with
  | nil => exact Nat.zero_le _
  | append_singleton p name ih =>
    obtain ⟨hp, hname⟩ := plain_append.mp hp
    have hbytes : name.utf8ByteSize ≠ 0 := by
      rw [Ne, String.utf8ByteSize_eq_zero_iff]
      exact (plain_cons.mp hname).1.ne_empty
    have hslash : "/".utf8ByteSize = 1 := by decide
    have hbefore := ih hp
    rw [text_concat, List.length_append, List.length_singleton, String.utf8ByteSize_append]
    split
    · next hnil =>
      rw [hnil, hslash, List.length_nil]
      omega
    · rw [String.utf8ByteSize_append, hslash]
      omega

/-- A path that the system accepts has few names. -/
theorem Nameable.length_lt {p : Place} (h : p.Nameable) (hp : p.Plain) :
    p.length < Host.maxDepth := by
  have hlength := length_le_of_plain hp
  have hshort : ¬ 4095 < p.text.utf8ByteSize := by
    intro hlong
    have hfault := h.no_fault
    unfold FileTree.pathFault? at hfault
    rw [if_pos hlong] at hfault
    split at hfault <;> cases hfault
  unfold Host.maxDepth
  omega

/-! ### Places above a place -/

/-- Lying above: the way to `p` leads through `q` and further. -/
def Above (q p : Place) : Prop :=
  q <+: p ∧ q ≠ p

instance (q p : Place) : Decidable (Above q p) :=
  inferInstanceAs (Decidable (q <+: p ∧ q ≠ p))

theorem not_above_nil (q : Place) : ¬ Above q [] := by
  rintro ⟨hpre, hne⟩
  exact hne (List.prefix_nil.mp hpre)

theorem above_cons_iff {q : Place} {name : String} {p : Place} :
    Above q (name :: p) ↔ q = [] ∨ ∃ q', q = name :: q' ∧ Above q' p := by
  unfold Above
  rw [List.prefix_cons_iff]
  constructor
  · rintro ⟨rfl | ⟨q', rfl, hpre⟩, hne⟩
    · exact .inl rfl
    · exact .inr ⟨q', rfl, hpre, fun h => hne (congrArg _ h)⟩
  · rintro (rfl | ⟨q', rfl, hpre, hne⟩)
    · exact ⟨.inl rfl, nofun⟩
    · exact ⟨.inr ⟨q', rfl, hpre⟩, fun h => hne (List.cons.inj h).2⟩

theorem above_append_iff (p : Place) {q r : Place} : Above (p ++ q) (p ++ r) ↔ Above q r := by
  unfold Above
  rw [List.prefix_append_right_inj, Ne, Ne, List.append_right_inj]

theorem above_concat_iff {q p : Place} {name : String} : Above q (p ++ [name]) ↔ q <+: p := by
  unfold Above
  rw [List.prefix_concat_iff]
  constructor
  · rintro ⟨rfl | hpre, hne⟩
    · exact absurd rfl hne
    · exact hpre
  · intro hpre
    refine ⟨.inr hpre, ?_⟩
    rintro rfl
    have hlength := hpre.length_le
    rw [List.length_append, List.length_singleton] at hlength
    omega

theorem above_iff_prefix_dropLast {q p : Place} (hp : p ≠ []) : Above q p ↔ q <+: p.dropLast := by
  have hsplit : p.dropLast ++ [p.getLast hp] = p := List.dropLast_concat_getLast hp
  rw [← above_concat_iff, hsplit]

/-- What lies at or above a place and is not the place itself lies above it. -/
theorem above_of_isPrefix {q p : Place} (h : q <+: p) : q = p ∨ Above q p := by
  by_cases heq : q = p
  · exact .inl heq
  · exact .inr ⟨h, heq⟩

end Place

end CondRegions
