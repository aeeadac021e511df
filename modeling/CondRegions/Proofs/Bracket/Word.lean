import CondRegions.Region.Resolve
import Mathlib.Data.List.Pairwise

/-!
# Words of brackets

Start and end markers, read in the order of their offsets, form a word of opening and closing
brackets. A bracket carries the style of its marker, so that the markers of several styles can stand
in one word.

* `Markers.word` — the start and end markers of one style, merged by offset;
* `Word.Ordered` — no bracket is empty and each one ends before the next one starts.

An ordered word is determined by its brackets (`Word.Ordered.mergeSort_eq`), so every way to list
the markers of a text in order gives the same word.
-/

namespace CondRegions

/-! ### Sorting by a key -/

/-- A list that is strictly sorted by a key is what sorting any permutation of it gives. -/
theorem mergeSort_eq_of_pairwise_lt {α : Type} (key : α → Nat) {xs ys : List α}
    (hys : ys.Pairwise fun a b => key a < key b) (h : xs.Perm ys) :
    xs.mergeSort (fun a b => decide (key a ≤ key b)) = ys := by
  -- members with equal keys are equal, so the sorted order is antisymmetric on them
  have hinj : ∀ a ∈ ys, ∀ b ∈ ys, key a = key b → a = b :=
    List.Pairwise.forall_of_forall_of_flip (fun _ _ _ => rfl)
      (hys.imp fun hlt heq => absurd heq (Nat.ne_of_lt hlt))
      (hys.imp fun hlt heq => absurd heq (Nat.ne_of_gt hlt))
  have hsorted : (xs.mergeSort fun a b => decide (key a ≤ key b)).Pairwise
      fun a b => key a ≤ key b := by
    refine (List.pairwise_mergeSort ?_ ?_ xs).imp fun hab => of_decide_eq_true hab
    · intro a b c hab hbc
      exact decide_eq_true (Nat.le_trans (of_decide_eq_true hab) (of_decide_eq_true hbc))
    · intro a b
      simpa using Nat.le_total (key a) (key b)
  have hperm : (xs.mergeSort fun a b => decide (key a ≤ key b)).Perm ys :=
    (List.mergeSort_perm xs _).trans h
  refine List.Perm.eq_of_pairwise ?_ hsorted (hys.imp Nat.le_of_lt) hperm
  intro a b ha hb hab hba
  exact hinj a (hperm.mem_iff.mp ha) b hb (Nat.le_antisymm hab hba)

/-- Two lists that are strictly sorted by a key and have the same members are equal. -/
theorem eq_of_perm_of_pairwise_lt {α : Type} (key : α → Nat) {xs ys : List α}
    (hxs : xs.Pairwise fun a b => key a < key b) (hys : ys.Pairwise fun a b => key a < key b)
    (h : xs.Perm ys) : xs = ys :=
  (mergeSort_eq_of_pairwise_lt key hxs (List.Perm.refl xs)).symm.trans
    (mergeSort_eq_of_pairwise_lt key hys h)

/-! ### Brackets -/

/-- A marker that opens or closes a region of its style. -/
inductive Bracket where
  | opening (family : Family) (marker : Marker)
  | closing (family : Family) (marker : Marker)
deriving DecidableEq, Repr

namespace Bracket

/-- The marker of a bracket. -/
def marker : Bracket → Marker
  | opening _ m => m
  | closing _ m => m

/-- The style of a bracket. -/
def family : Bracket → Family
  | opening f _ => f
  | closing f _ => f

/-- The place of a bracket. -/
def span (b : Bracket) : Span :=
  b.marker.span

/-- The marker of an opening bracket. -/
def opening? : Bracket → Option Marker
  | opening _ m => some m
  | closing _ _ => none

/-- The marker of a closing bracket. -/
def closing? : Bracket → Option Marker
  | opening _ _ => none
  | closing _ m => some m

/-- Whether a bracket closes a region. -/
def isClosing (b : Bracket) : Bool :=
  b.closing?.isSome

/-- Whether `b` starts no later than `c`. -/
def startsNoLater (b c : Bracket) : Bool :=
  b.span.start ≤ c.span.start

/-- `b` ends before `c` starts. -/
def Before (b c : Bracket) : Prop :=
  b.span.stop ≤ c.span.start

@[simp] theorem span_opening (f : Family) (m : Marker) : (opening f m).span = m.span := rfl

@[simp] theorem span_closing (f : Family) (m : Marker) : (closing f m).span = m.span := rfl

end Bracket

namespace Markers

/-- The brackets of one style: first those that open, then those that close. -/
def brackets (family : Family) (ms : Markers) : List Bracket :=
  ms.starts.map (.opening family) ++ ms.ends.map (.closing family)

/-- **The word of one style.** Its start and end markers merged by offset. -/
def word (family : Family) (ms : Markers) : List Bracket :=
  (ms.brackets family).mergeSort Bracket.startsNoLater

/-- Both lists are sorted by offset, no marker is empty, and no two markers overlap. -/
structure Separated (ms : Markers) : Prop where
  starts_sorted : ms.starts.Pairwise fun m n => m.span.start ≤ n.span.start
  ends_sorted : ms.ends.Pairwise fun m n => m.span.start ≤ n.span.start
  nonempty : ∀ m ∈ ms.starts ++ ms.ends, m.span.start < m.span.stop
  disjoint : (ms.starts ++ ms.ends).Pairwise fun m n =>
    m.span.stop ≤ n.span.start ∨ n.span.stop ≤ m.span.start

end Markers

namespace Word

/-! ### Parts of a word -/

/-- The start markers of a word, in order. -/
def openings (w : List Bracket) : List Marker :=
  w.filterMap Bracket.opening?

/-- The end markers of a word, in order. -/
def closings (w : List Bracket) : List Marker :=
  w.filterMap Bracket.closing?

@[simp] theorem openings_nil : openings [] = [] := rfl

@[simp] theorem closings_nil : closings [] = [] := rfl

@[simp] theorem openings_opening (f : Family) (m : Marker) (w : List Bracket) :
    openings (.opening f m :: w) = m :: openings w := rfl

@[simp] theorem openings_closing (f : Family) (m : Marker) (w : List Bracket) :
    openings (.closing f m :: w) = openings w := rfl

@[simp] theorem closings_opening (f : Family) (m : Marker) (w : List Bracket) :
    closings (.opening f m :: w) = closings w := rfl

@[simp] theorem closings_closing (f : Family) (m : Marker) (w : List Bracket) :
    closings (.closing f m :: w) = m :: closings w := rfl

@[simp] theorem openings_append (u w : List Bracket) :
    openings (u ++ w) = openings u ++ openings w :=
  List.filterMap_append

@[simp] theorem closings_append (u w : List Bracket) :
    closings (u ++ w) = closings u ++ closings w :=
  List.filterMap_append

theorem mem_openings {m : Marker} {w : List Bracket} :
    m ∈ openings w ↔ ∃ f, Bracket.opening f m ∈ w := by
  constructor
  · intro h
    obtain ⟨b, hb, hm⟩ := List.mem_filterMap.mp h
    cases b with
    | opening f n => exact ⟨f, Option.some.inj hm ▸ hb⟩
    | closing f n => exact absurd hm (by simp [Bracket.opening?])
  · rintro ⟨f, h⟩
    exact List.mem_filterMap.mpr ⟨_, h, rfl⟩

theorem mem_closings {m : Marker} {w : List Bracket} :
    m ∈ closings w ↔ ∃ f, Bracket.closing f m ∈ w := by
  constructor
  · intro h
    obtain ⟨b, hb, hm⟩ := List.mem_filterMap.mp h
    cases b with
    | opening f n => exact absurd hm (by simp [Bracket.closing?])
    | closing f n => exact ⟨f, Option.some.inj hm ▸ hb⟩
  · rintro ⟨f, h⟩
    exact List.mem_filterMap.mpr ⟨_, h, rfl⟩

/-! ### Ordered words -/

/-- **Ordered words.** No bracket is empty, and each one ends before the next one starts. -/
structure Ordered (w : List Bracket) : Prop where
  before : w.Pairwise Bracket.Before
  nonempty : ∀ b ∈ w, b.span.start < b.span.stop

namespace Ordered

variable {u w : List Bracket} {b c : Bracket}

theorem sublist (h : Ordered w) (hu : u.Sublist w) : Ordered u :=
  ⟨h.before.sublist hu, fun _ hb => h.nonempty _ (hu.mem hb)⟩

theorem tail (h : Ordered (b :: w)) : Ordered w :=
  h.sublist (List.sublist_cons_self b w)

theorem head_before (h : Ordered (b :: w)) (hc : c ∈ w) : b.span.stop ≤ c.span.start :=
  List.rel_of_pairwise_cons h.before hc

theorem before_of_append (h : Ordered (u ++ w)) (hb : b ∈ u) (hc : c ∈ w) :
    b.span.stop ≤ c.span.start :=
  (List.pairwise_append.mp h.before).2.2 b hb c hc

/-- The brackets of an ordered word have different starts. -/
theorem pairwise_lt (h : Ordered w) : w.Pairwise fun b c => b.span.start < c.span.start := by
  refine h.before.imp_of_mem fun {b c} hb _ hbc => ?_
  exact Nat.lt_of_lt_of_le (h.nonempty b hb) hbc

/-- Sorting the brackets of an ordered word gives the word. -/
theorem mergeSort_eq (hw : Ordered w) (h : u.Perm w) :
    u.mergeSort Bracket.startsNoLater = w :=
  mergeSort_eq_of_pairwise_lt (fun b : Bracket => b.span.start) hw.pairwise_lt h

/-- The start markers of an ordered word have different starts. -/
theorem openings_pairwise_lt (h : Ordered w) :
    (openings w).Pairwise fun m n => m.span.start < n.span.start := by
  refine List.Pairwise.filterMap _ ?_ h.pairwise_lt
  rintro (⟨f, m⟩ | ⟨f, m⟩) (⟨g, n⟩ | ⟨g, n⟩) hlt m' hm n' hn <;> simp_all [Bracket.opening?]

/-- The end markers of an ordered word have different starts. -/
theorem closings_pairwise_lt (h : Ordered w) :
    (closings w).Pairwise fun m n => m.span.start < n.span.start := by
  refine List.Pairwise.filterMap _ ?_ h.pairwise_lt
  rintro (⟨f, m⟩ | ⟨f, m⟩) (⟨g, n⟩ | ⟨g, n⟩) hlt m' hm n' hn <;> simp_all [Bracket.closing?]

/-- Brackets that are sorted by offset, not empty and pairwise disjoint form an ordered word. -/
theorem of_sorted (hs : w.Pairwise fun b c => b.span.start ≤ c.span.start)
    (hd : w.Pairwise fun b c => b.span.stop ≤ c.span.start ∨ c.span.stop ≤ b.span.start)
    (hne : ∀ b ∈ w, b.span.start < b.span.stop) : Ordered w := by
  refine ⟨(hs.and hd).imp_of_mem ?_, hne⟩
  rintro b c - hc ⟨hle, hbc | hcb⟩
  · exact hbc
  · -- `c` would end before it starts
    exact absurd (hne c hc) (by omega)

end Ordered

end Word

/-! ### The word of separated markers -/

namespace Markers

open Word

@[simp] theorem openings_map_opening (family : Family) (ms : List Marker) :
    openings (ms.map (.opening family)) = ms := by
  simp [openings, List.filterMap_map, Function.comp_def, Bracket.opening?]

@[simp] theorem closings_map_closing (family : Family) (ms : List Marker) :
    closings (ms.map (.closing family)) = ms := by
  simp [closings, List.filterMap_map, Function.comp_def, Bracket.closing?]

@[simp] theorem openings_brackets (family : Family) (ms : Markers) :
    openings (ms.brackets family) = ms.starts := by
  have he : openings (ms.ends.map (.closing family)) = [] := by
    simp [openings, List.filterMap_map, Function.comp_def, Bracket.opening?]
  rw [brackets, openings_append, openings_map_opening, he, List.append_nil]

@[simp] theorem closings_brackets (family : Family) (ms : Markers) :
    closings (ms.brackets family) = ms.ends := by
  have hs : closings (ms.starts.map (.opening family)) = [] := by
    simp [closings, List.filterMap_map, Function.comp_def, Bracket.closing?]
  rw [brackets, closings_append, closings_map_closing, hs, List.nil_append]

theorem word_perm (family : Family) (ms : Markers) :
    (ms.word family).Perm (ms.brackets family) :=
  List.mergeSort_perm _ _

theorem family_of_mem_word {family : Family} {ms : Markers} {b : Bracket}
    (h : b ∈ ms.word family) : b.family = family := by
  have hb : b ∈ ms.brackets family := (word_perm family ms).mem_iff.mp h
  rcases List.mem_append.mp hb with hb | hb <;>
  · obtain ⟨m, -, rfl⟩ := List.mem_map.mp hb
    rfl

/-- The brackets of separated markers keep their distance. -/
theorem Separated.brackets_disjoint {ms : Markers} (h : ms.Separated) (family : Family) :
    (ms.brackets family).Pairwise fun b c =>
      b.span.stop ≤ c.span.start ∨ c.span.stop ≤ b.span.start := by
  obtain ⟨hs, he, hse⟩ := List.pairwise_append.mp h.disjoint
  refine List.pairwise_append.mpr ⟨hs.map _ fun _ _ hd => hd, he.map _ fun _ _ hd => hd, ?_⟩
  intro b hb c hc
  obtain ⟨m, hm, rfl⟩ := List.mem_map.mp hb
  obtain ⟨n, hn, rfl⟩ := List.mem_map.mp hc
  exact hse m hm n hn

theorem Separated.brackets_nonempty {ms : Markers} (h : ms.Separated) {family : Family}
    {b : Bracket} (hb : b ∈ ms.brackets family) : b.span.start < b.span.stop := by
  rcases List.mem_append.mp hb with hb | hb <;> obtain ⟨m, hm, rfl⟩ := List.mem_map.mp hb
  · exact h.nonempty m (List.mem_append_left _ hm)
  · exact h.nonempty m (List.mem_append_right _ hm)

/-- Separated markers form an ordered word. -/
theorem Separated.ordered_word {ms : Markers} (h : ms.Separated) (family : Family) :
    Ordered (ms.word family) := by
  have hperm := word_perm family ms
  refine Ordered.of_sorted ?_ ?_ fun b hb => h.brackets_nonempty (hperm.mem_iff.mp hb)
  · refine (List.pairwise_mergeSort ?_ ?_ _).imp fun hbc => of_decide_eq_true hbc
    · intro a b c hab hbc
      exact decide_eq_true (Nat.le_trans (of_decide_eq_true hab) (of_decide_eq_true hbc))
    · intro a b
      simpa [Bracket.startsNoLater] using Nat.le_total a.span.start b.span.start
  · exact (hperm.pairwise_iff fun {b c} => Or.symm).mpr (h.brackets_disjoint family)

/-- The start markers of the word are the given ones, in their order. -/
theorem Separated.openings_word {ms : Markers} (h : ms.Separated) (family : Family) :
    openings (ms.word family) = ms.starts := by
  have hperm : (openings (ms.word family)).Perm (openings (ms.brackets family)) :=
    (word_perm family ms).filterMap Bracket.opening?
  rw [openings_brackets] at hperm
  -- the given list is itself strictly sorted, so it is the only sorted list of its members
  have hstarts : Ordered (ms.starts.map (.opening family)) := by
    refine Ordered.of_sorted (h.starts_sorted.map _ fun _ _ hle => hle)
      ((h.brackets_disjoint family).sublist (List.sublist_append_left _ _)) fun b hb => ?_
    exact h.brackets_nonempty (List.mem_append_left _ hb)
  have hlt := hstarts.openings_pairwise_lt
  rw [openings_map_opening] at hlt
  exact eq_of_perm_of_pairwise_lt (fun m : Marker => m.span.start)
    (h.ordered_word family).openings_pairwise_lt hlt hperm

/-- The end markers of the word are the given ones, in their order. -/
theorem Separated.closings_word {ms : Markers} (h : ms.Separated) (family : Family) :
    closings (ms.word family) = ms.ends := by
  have hperm : (closings (ms.word family)).Perm (closings (ms.brackets family)) :=
    (word_perm family ms).filterMap Bracket.closing?
  rw [closings_brackets] at hperm
  have hends : Ordered (ms.ends.map (.closing family)) := by
    refine Ordered.of_sorted (h.ends_sorted.map _ fun _ _ hle => hle)
      ((h.brackets_disjoint family).sublist (List.sublist_append_right _ _)) fun b hb => ?_
    exact h.brackets_nonempty (List.mem_append_right _ hb)
  have hlt := hends.closings_pairwise_lt
  rw [closings_map_closing] at hlt
  exact eq_of_perm_of_pairwise_lt (fun m : Marker => m.span.start)
    (h.ordered_word family).closings_pairwise_lt hlt hperm

end Markers

end CondRegions
