import CondRegions.Text.Basic
import Mathlib.Data.List.DropRight

/-!
# Blanks and trimming

Blanks at the start of a text are skipped, and white space at its end is trimmed. Skipping is undone
by putting blanks in front (`Text.skipBlanks_append`), and it leaves a text that does not begin with
a blank (`Text.skipBlanks_cases`). Trimming the end takes white space and nothing else
(`Text.trimEnd_cases`), so blanks put at the end do not matter to it (`Text.trimEnd_append_blanks`).
Words are separated by gaps (`Text.words_append_gap`).
-/

namespace CondRegions.Text

/-- A text of blanks. -/
def IsBlanks (cs : List Char) : Prop :=
  ∀ c ∈ cs, isBlank c = true

theorem IsBlanks.nil : IsBlanks [] := nofun

/-- A text of blanks, at least one. -/
def IsGap (cs : List Char) : Prop :=
  IsBlanks cs ∧ cs ≠ []

/-! ### Blanks at the start -/

theorem skipBlanks_cons {c : Char} (h : isBlank c = false) (cs : List Char) :
    skipBlanks (c :: cs) = c :: cs :=
  List.dropWhile_cons_of_neg (Bool.eq_false_iff.mp h)

theorem skipBlanks_append {blanks : List Char} (h : IsBlanks blanks) (cs : List Char) :
    skipBlanks (blanks ++ cs) = skipBlanks cs :=
  List.dropWhile_append_of_pos h

theorem skipBlanks_blanks {blanks : List Char} (h : IsBlanks blanks) : skipBlanks blanks = [] := by
  have hskip := skipBlanks_append h []
  rwa [List.append_nil] at hskip

/-- **Skipping.** What is skipped are blanks, and what is left does not begin with one. -/
theorem skipBlanks_cases (cs : List Char) :
    ∃ blanks, IsBlanks blanks ∧ cs = blanks ++ skipBlanks cs ∧
      ∀ c rest, skipBlanks cs = c :: rest → isBlank c = false := by
  refine ⟨cs.takeWhile isBlank, fun c hc => List.mem_takeWhile_imp hc,
    List.takeWhile_append_dropWhile.symm, fun c rest h => ?_⟩
  have hhead := List.head?_dropWhile_not isBlank cs
  unfold skipBlanks at h
  rw [h] at hhead
  simpa using hhead

/-! ### White space at the end -/

/-- **Trimming the end.** What is taken is white space, and what is left does not end in it. -/
theorem trimEnd_cases (cs : List Char) :
    ∃ space, cs = trimEnd cs ++ space ∧ (∀ c ∈ space, isWhiteSpace c = true) ∧
      ∀ c, (trimEnd cs).getLast? = some c → isWhiteSpace c = false := by
  refine ⟨cs.rtakeWhile isWhiteSpace, (List.rdropWhile_append_rtakeWhile ..).symm,
    fun c hc => List.mem_rtakeWhile_imp hc, fun c hc => ?_⟩
  change (cs.rdropWhile isWhiteSpace).getLast? = some c at hc
  obtain ⟨hne, rfl⟩ := List.mem_getLast?_eq_getLast hc
  simpa using List.rdropWhile_last_not isWhiteSpace cs hne

/-- Blanks at the end do not matter to trimming. -/
theorem trimEnd_append_blanks {blanks : List Char} (h : IsBlanks blanks) (cs : List Char) :
    trimEnd (cs ++ blanks) = trimEnd cs := by
  unfold trimEnd dropEndWhile
  rw [List.reverse_append, List.dropWhile_append_of_pos]
  intro c hc
  exact isWhiteSpace_of_isBlank (h c (List.mem_reverse.mp hc))

theorem trimEnd_trimBlanksEnd (cs : List Char) : trimEnd (trimBlanksEnd cs) = trimEnd cs := by
  have hblanks : IsBlanks (cs.rtakeWhile isBlank) := fun c hc => List.mem_rtakeWhile_imp hc
  calc trimEnd (trimBlanksEnd cs)
      = trimEnd (cs.rdropWhile isBlank ++ cs.rtakeWhile isBlank) :=
        (trimEnd_append_blanks hblanks _).symm
    _ = trimEnd cs := by rw [List.rdropWhile_append_rtakeWhile]

/-- A text that does not begin with white space keeps its first character when its end is
trimmed. -/
theorem trimEnd_cons {c : Char} (h : isWhiteSpace c = false) (cs : List Char) :
    ∃ more, trimEnd (c :: cs) = c :: more := by
  obtain ⟨space, hcs, hspace, -⟩ := trimEnd_cases (c :: cs)
  cases htrim : trimEnd (c :: cs) with
  | nil =>
    -- all characters would be white space
    rw [htrim, List.nil_append] at hcs
    have hc := hspace c (by rw [← hcs]; exact List.mem_cons_self)
    rw [h] at hc
    cases hc
  | cons d more =>
    rw [htrim, List.cons_append] at hcs
    obtain ⟨rfl, -⟩ := List.cons.inj hcs
    exact ⟨more, rfl⟩

/-- A text that has been trimmed at its end, and does not begin with white space, is trimmed. -/
theorem trim_trimEnd {c : Char} (h : isWhiteSpace c = false) (cs : List Char) :
    trim (trimEnd (c :: cs)) = trimEnd (c :: cs) := by
  obtain ⟨more, hmore⟩ := trimEnd_cons h cs
  have hstart : trimStart (trimEnd (c :: cs)) = trimEnd (c :: cs) := by
    rw [hmore]
    exact List.dropWhile_cons_of_neg (Bool.eq_false_iff.mp h)
  unfold trim
  rw [hstart]
  exact List.rdropWhile_idempotent isWhiteSpace (c :: cs)

/-! ### Words -/

/-- Blanks before a word do not matter to it. -/
theorem words_blanks_append {blanks : List Char} (h : IsBlanks blanks) (cs : List Char) :
    words (blanks ++ cs) = words cs := by
  induction blanks with
  | nil => rfl
  | cons c blanks ih =>
    obtain ⟨hc, hblanks⟩ := List.forall_mem_cons.mp h
    rw [← ih hblanks]
    unfold words
    rw [List.cons_append, List.splitOnP_cons_eq_if_modifyHead, if_pos (isWhiteSpace_of_isBlank hc)]
    rfl

/-- A gap ends a word. -/
theorem words_append_gap {word gap : List Char} (hne : word ≠ [])
    (hword : word.any isWhiteSpace = false) (hgap : IsGap gap) (cs : List Char) :
    words (word ++ gap ++ cs) = word :: words cs := by
  obtain ⟨hblanks, hgapne⟩ := hgap
  cases gap with
  | nil => exact absurd rfl hgapne
  | cons c blanks =>
    obtain ⟨hc, hblanks⟩ := List.forall_mem_cons.mp hblanks
    have hword' : ∀ c ∈ word, isWhiteSpace c = false := by simpa using hword
    rw [← words_blanks_append hblanks cs]
    unfold words
    rw [List.append_assoc, List.cons_append,
      List.splitOnP_append_cons_of_forall_mem hword' _ (isWhiteSpace_of_isBlank hc)]
    exact List.filter_cons_of_pos (by simpa using hne)

end CondRegions.Text
