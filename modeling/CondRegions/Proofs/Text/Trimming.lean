import CondRegions.Proofs.Text.Blanks

/-!
# White space at both ends

White space put at an end of a text does not matter to trimming that end. A visible character
anywhere in a text separates the two ends: what stands before it is trimmed at its start and what
stands behind it at its end, and nothing else happens (`Text.trim_visible`). Trimming leaves nothing
exactly of white space (`Text.trim_eq_nil_iff`).
-/

namespace CondRegions.Text

/-- A text of white space. -/
def IsSpace (cs : List Char) : Prop :=
  ∀ c ∈ cs, isWhiteSpace c = true

theorem IsSpace.append {xs ys : List Char} (hx : IsSpace xs) (hy : IsSpace ys) :
    IsSpace (xs ++ ys) := by
  intro c hc
  exact (List.mem_append.mp hc).elim (hx c) (hy c)

theorem IsSpace.not_mem {cs : List Char} (h : IsSpace cs) {c : Char} (hc : isWhiteSpace c = false) :
    c ∉ cs := by
  intro hmem
  rw [h c hmem] at hc
  cases hc

/-! ### One end -/

theorem trimStart_append {space : List Char} (h : IsSpace space) (cs : List Char) :
    trimStart (space ++ cs) = trimStart cs :=
  List.dropWhile_append_of_pos h

theorem trimEnd_append {space : List Char} (h : IsSpace space) (cs : List Char) :
    trimEnd (cs ++ space) = trimEnd cs := by
  unfold trimEnd dropEndWhile
  rw [List.reverse_append, List.dropWhile_append_of_pos]
  intro c hc
  exact h c (List.mem_reverse.mp hc)

theorem trimStart_eq_nil_iff {cs : List Char} : trimStart cs = [] ↔ IsSpace cs :=
  List.dropWhile_eq_nil_iff

/-- A text that is not all white space is trimmed at its start as if nothing followed. -/
theorem trimStart_append_of_ne_nil {xs : List Char} (h : trimStart xs ≠ []) (ys : List Char) :
    trimStart (xs ++ ys) = trimStart xs ++ ys := by
  unfold trimStart at h ⊢
  rw [List.dropWhile_append, if_neg]
  intro hnil
  exact h (List.isEmpty_iff.mp hnil)

theorem trimStart_cons {c : Char} (h : isWhiteSpace c = false) (cs : List Char) :
    trimStart (c :: cs) = c :: cs :=
  List.dropWhile_cons_of_neg (Bool.eq_false_iff.mp h)

/-- Up to a visible character, the start of a text is trimmed as if it were the text. -/
theorem trimStart_visible {c : Char} (h : isWhiteSpace c = false) (xs ys : List Char) :
    trimStart (xs ++ c :: ys) = trimStart xs ++ c :: ys := by
  by_cases hnil : trimStart xs = []
  · rw [trimStart_append (trimStart_eq_nil_iff.mp hnil), hnil, trimStart_cons h, List.nil_append]
  · exact trimStart_append_of_ne_nil hnil _

/-- From a visible character on, the end of a text is trimmed as if it were the text. -/
theorem trimEnd_visible {c : Char} (h : isWhiteSpace c = false) (xs ys : List Char) :
    trimEnd (xs ++ c :: ys) = xs ++ c :: trimEnd ys := by
  -- read backwards, the end is a start
  have hmirror := trimStart_visible h ys.reverse xs.reverse
  unfold trimEnd dropEndWhile
  unfold trimStart at hmirror
  rw [List.reverse_append, List.reverse_cons, List.append_assoc, List.singleton_append, hmirror]
  simp only [List.reverse_append, List.reverse_cons, List.reverse_reverse, List.append_assoc,
    List.singleton_append]

/-! ### Both ends -/

/-- **A visible character** separates the two ends. -/
theorem trim_visible {c : Char} (h : isWhiteSpace c = false) (xs ys : List Char) :
    trim (xs ++ c :: ys) = trimStart xs ++ c :: trimEnd ys := by
  unfold trim
  rw [trimStart_visible h, trimEnd_visible h]

/-- Trimming leaves nothing exactly of white space. -/
theorem trim_eq_nil_iff {cs : List Char} : trim cs = [] ↔ IsSpace cs := by
  constructor
  · intro h
    rw [← trimStart_eq_nil_iff]
    by_contra hne
    -- what is left begins with a visible character, which stays
    obtain ⟨c, more, hcs⟩ := List.exists_cons_of_ne_nil hne
    have hvisible : isWhiteSpace c = false := by
      have hhead := List.head?_dropWhile_not isWhiteSpace cs
      unfold trimStart at hcs
      rw [hcs] at hhead
      simpa using hhead
    unfold trim at h
    obtain ⟨more', hmore'⟩ := trimEnd_cons hvisible more
    rw [hcs, hmore'] at h
    cases h
  · intro h
    unfold trim
    rw [trimStart_eq_nil_iff.mpr h]
    rfl

/-- White space at the end does not matter to trimming. -/
theorem trim_append {space : List Char} (h : IsSpace space) (cs : List Char) :
    trim (cs ++ space) = trim cs := by
  by_cases hcs : IsSpace cs
  · -- nothing is left of either text
    rw [trim_eq_nil_iff.mpr hcs, trim_eq_nil_iff.mpr (hcs.append h)]
  · have hne : trimStart cs ≠ [] := fun hnil => hcs (trimStart_eq_nil_iff.mp hnil)
    unfold trim
    rw [trimStart_append_of_ne_nil hne, trimEnd_append h]

theorem trim_of_trimEnd (cs : List Char) : trim (trimEnd cs) = trim cs := by
  obtain ⟨space, hcs, hspace, -⟩ := trimEnd_cases cs
  calc trim (trimEnd cs)
      = trim (trimEnd cs ++ space) := (trim_append hspace _).symm
    _ = trim cs := by rw [← hcs]

/-- A text that is trimmed, and is not empty, begins with a visible character. -/
theorem visible_of_trim {c : Char} {cs : List Char} (h : trim (c :: cs) = c :: cs) :
    isWhiteSpace c = false := by
  by_contra hspace
  -- otherwise the text would get shorter
  have hshort : trimStart (c :: cs) = trimStart cs :=
    List.dropWhile_cons_of_pos (by simpa using hspace)
  have hlen := congrArg List.length h
  have hle₁ := (List.rdropWhile_prefix isWhiteSpace (trimStart cs)).length_le
  have hle₂ := (List.dropWhile_suffix isWhiteSpace (l := cs)).length_le
  unfold trim at hlen
  rw [hshort, List.length_cons] at hlen
  change (List.rdropWhile isWhiteSpace (trimStart cs)).length = _ at hlen
  unfold trimStart at hlen hle₁
  omega

end CondRegions.Text
