import CondRegions.Proofs.Marker.Located
import Mathlib.Data.List.Nodup

/-!
# Styles merged

The markers that `locate` finds for several styles, merged by offset, form one word. No two markers
of a text overlap, whatever their styles, since a line begins with one marker at most. So there is
only one way to merge them, and the word is the one that is read line by line (`mergedWord_eq`).
-/

namespace CondRegions

open Word

/-- **Merged markers.** The markers of all styles, merged by offset. -/
def mergedWord (source : List Char) : List Bracket :=
  (Family.passOrder.flatMap fun F => (locate F source).brackets F).mergeSort Bracket.startsNoLater

theorem mem_brackets_locate {F : Family} {source : List Char} {b : Bracket} :
    b ∈ (locate F source).brackets F ↔ b ∈ ofText [F] source := by
  rw [Markers.brackets, List.mem_append, List.mem_map, List.mem_map]
  constructor
  · rintro (⟨m, hm, rfl⟩ | ⟨m, hm, rfl⟩)
    · exact mem_starts_locate.mp hm
    · exact mem_ends_locate.mp hm
  · intro hb
    obtain rfl : b.family = F := family_of_mem_ofText hb
    cases b with
    | opening f m => exact .inl ⟨m, mem_starts_locate.mpr hb, rfl⟩
    | closing f m => exact .inr ⟨m, mem_ends_locate.mpr hb, rfl⟩

namespace Word

/-- No bracket stands twice in an ordered word. -/
theorem Ordered.nodup {w : List Bracket} (hw : Ordered w) : w.Nodup := by
  refine hw.pairwise_lt.imp fun {b c} hlt => ?_
  rintro rfl
  exact absurd hlt (Nat.lt_irrefl _)

end Word

theorem nodup_brackets_locate (F : Family) (source : List Char) :
    ((locate F source).brackets F).Nodup := by
  have hword := ((locate_separated F source).ordered_word F).nodup
  exact (Markers.word_perm F _).nodup_iff.mp hword

/-- The markers of different styles, listed style by style, are the brackets of the text. -/
theorem brackets_perm_ofText {families : List Family} (hnodup : families.Nodup)
    (source : List Char) :
    (families.flatMap fun F => (locate F source).brackets F).Perm (ofText families source) := by
  -- neither list repeats a bracket: brackets of one style have different starts, others differ in
  -- style
  have hlist : (families.flatMap fun F => (locate F source).brackets F).Nodup := by
    refine List.nodup_flatMap.mpr ⟨fun F _ => nodup_brackets_locate F source, ?_⟩
    refine hnodup.imp fun {F G} hne b hF hG => hne ?_
    rw [← family_of_mem_ofText (mem_brackets_locate.mp hF),
      ← family_of_mem_ofText (mem_brackets_locate.mp hG)]
  refine (List.perm_ext_iff_of_nodup hlist (ordered_ofText families source).nodup).mpr fun b => ?_
  rw [List.mem_flatMap]
  constructor
  · rintro ⟨F, hF, hb⟩
    exact ((mem_ofLines_singleton hF).mp (mem_brackets_locate.mp hb)).1
  · intro hb
    have hF := family_of_mem_ofLines hb
    exact ⟨b.family, hF, mem_brackets_locate.mpr ((mem_ofLines_singleton hF).mpr ⟨hb, rfl⟩)⟩

/-- **One word.** The markers of all styles, merged by offset, are the brackets of the lines. -/
theorem mergedWord_eq (source : List Char) :
    mergedWord source = ofText Family.passOrder source :=
  (ordered_ofText Family.passOrder source).mergeSort_eq
    (brackets_perm_ofText (by decide) source)

end CondRegions
