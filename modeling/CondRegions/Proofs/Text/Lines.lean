import CondRegions.Text.Basic
import Mathlib.Data.List.Basic

/-!
# Lines of a text

A list of texts consists of lines if no member is empty, no member has a line feed before its last
character, and all members but the last end in one (`Text.AreLines`). The lines of a text are such a
list, and a list of lines is what its concatenation is cut into (`Text.lines_flatten`). Leaving out
lines of such a list gives one again, so a text from which whole lines are removed is cut into the
lines that remain.

Texts that are empty or end in a line feed can be put in front of any text without disturbing its
lines (`Text.lines_append`). So the lines of a text are found by looking for line feeds
(`Text.lineAt_iff`).
-/

namespace CondRegions.Text

/-! ### Texts that end a line -/

/-- A text that is empty or ends in a line feed. -/
def EndsLine (text : List Char) : Prop :=
  text = [] ∨ text.getLast? = some '\n'

theorem EndsLine.nil : EndsLine [] := .inl rfl

theorem EndsLine.append {xs ys : List Char} (hx : EndsLine xs) (hy : EndsLine ys) :
    EndsLine (xs ++ ys) := by
  rcases hy with rfl | hy
  · rwa [List.append_nil]
  · right
    rw [List.getLast?_append, hy]
    rfl

/-- What follows the first character of a text that ends a line ends a line. -/
theorem EndsLine.tail {c : Char} {cs : List Char} (h : EndsLine (c :: cs)) : EndsLine cs := by
  rcases h with h | h
  · exact absurd h nofun
  · cases cs with
    | nil => exact .nil
    | cons d ds => exact .inr (by rwa [List.getLast?_cons_cons] at h)

/-- The end of a text that ends a line ends a line. -/
theorem EndsLine.of_append {xs ys : List Char} (h : EndsLine (xs ++ ys)) : EndsLine ys := by
  induction xs with
  | nil => exact h
  | cons x xs ih => exact ih h.tail

theorem lines_cons_newline (cs : List Char) : lines ('\n' :: cs) = ['\n'] :: lines cs := rfl

theorem lines_cons_of_cons {c : Char} {cs l : List Char} {ls : List (List Char)} (hc : c ≠ '\n')
    (h : lines cs = l :: ls) : lines (c :: cs) = (c :: l) :: ls := by
  rw [lines, if_neg hc, h]

theorem lines_cons_of_nil {c : Char} {cs : List Char} (hc : c ≠ '\n') (h : lines cs = []) :
    lines (c :: cs) = [[c]] := by
  rw [lines, if_neg hc, h]

theorem lines_eq_nil {cs : List Char} : lines cs = [] ↔ cs = [] := by
  constructor
  · intro h
    have hflat := flatten_lines cs
    rw [h] at hflat
    exact hflat.symm
  · rintro rfl
    rfl

/-- **Lines of two texts.** If the first text ends a line, the lines are those of the two texts. -/
theorem lines_append {xs : List Char} (h : EndsLine xs) (ys : List Char) :
    lines (xs ++ ys) = lines xs ++ lines ys := by
  induction xs with
  | nil => rfl
  | cons c cs ih =>
    by_cases hc : c = '\n'
    · subst hc
      rw [List.cons_append, lines_cons_newline, lines_cons_newline, ih h.tail, List.cons_append]
    · cases hl : lines cs with
      | nil =>
        -- a character that is no line feed cannot be the last one
        rw [lines_eq_nil.mp hl] at h
        rcases h with h | h
        · exact absurd h nofun
        · exact absurd (Option.some.inj h) hc
      | cons l ls =>
        have hl' : lines (cs ++ ys) = l :: (ls ++ lines ys) := by
          rw [ih h.tail, hl, List.cons_append]
        rw [List.cons_append, lines_cons_of_cons hc hl', lines_cons_of_cons hc hl, List.cons_append]

/-! ### Lists of lines -/

/-- **Lists of lines.** No member is empty or has a line feed before its last character, and all
members but the last end in a line feed. -/
structure AreLines (ls : List (List Char)) : Prop where
  nonempty : ∀ l ∈ ls, l ≠ []
  inner : ∀ l ∈ ls, '\n' ∉ l.dropLast
  full : ls.Pairwise fun l _ => l.getLast? = some '\n'

theorem AreLines.sublist {ls ms : List (List Char)} (h : AreLines ls) (hms : ms.Sublist ls) :
    AreLines ms :=
  ⟨fun l hl => h.nonempty l (hms.mem hl), fun l hl => h.inner l (hms.mem hl), h.full.sublist hms⟩

theorem areLines_lines (cs : List Char) : AreLines (lines cs) := by
  induction cs with
  | nil => exact ⟨nofun, nofun, List.Pairwise.nil⟩
  | cons c cs ih =>
    by_cases hc : c = '\n'
    · subst hc
      rw [lines_cons_newline]
      refine ⟨?_, ?_, List.pairwise_cons.mpr ⟨fun _ _ => rfl, ih.full⟩⟩
      · exact List.forall_mem_cons.mpr ⟨List.cons_ne_nil _ _, ih.nonempty⟩
      · exact List.forall_mem_cons.mpr ⟨List.not_mem_nil, ih.inner⟩
    · cases hl : lines cs with
      | nil =>
        rw [lines_cons_of_nil hc hl]
        refine ⟨?_, ?_, List.pairwise_singleton _ _⟩
        · exact List.forall_mem_singleton.mpr (List.cons_ne_nil _ _)
        · exact List.forall_mem_singleton.mpr List.not_mem_nil
      | cons l ls =>
        -- the character goes to the front of the first line, whose end stays
        rw [hl] at ih
        obtain ⟨hne, hnes⟩ := List.forall_mem_cons.mp ih.nonempty
        obtain ⟨hin, hins⟩ := List.forall_mem_cons.mp ih.inner
        obtain ⟨hfull, hfulls⟩ := List.pairwise_cons.mp ih.full
        rw [lines_cons_of_cons hc hl]
        refine ⟨?_, ?_, List.pairwise_cons.mpr ⟨fun m hm => ?_, hfulls⟩⟩
        · exact List.forall_mem_cons.mpr ⟨List.cons_ne_nil _ _, hnes⟩
        · refine List.forall_mem_cons.mpr ⟨?_, hins⟩
          rw [List.dropLast_cons_of_ne_nil hne, List.mem_cons, not_or]
          exact ⟨Ne.symm hc, hin⟩
        · rw [List.getLast?_cons, hfull m hm]
          rfl

/-- A text without a line feed before its last character is one line. -/
theorem lines_eq_singleton {l : List Char} (hne : l ≠ []) (h : '\n' ∉ l.dropLast) :
    lines l = [l] := by
  induction l with
  | nil => exact absurd rfl hne
  | cons c cs ih =>
    cases cs with
    | nil =>
      by_cases hc : c = '\n'
      · subst hc
        rfl
      · exact lines_cons_of_nil hc rfl
    | cons d ds =>
      rw [List.dropLast_cons_of_ne_nil (List.cons_ne_nil d ds), List.mem_cons, not_or] at h
      exact lines_cons_of_cons (Ne.symm h.1) (ih (List.cons_ne_nil d ds) h.2)

/-- **A list of lines is cut into itself.** -/
theorem lines_flatten {ls : List (List Char)} (h : AreLines ls) : lines ls.flatten = ls := by
  induction ls with
  | nil => rfl
  | cons l ls ih =>
    have hl : lines l = [l] :=
      lines_eq_singleton (h.nonempty l List.mem_cons_self) (h.inner l List.mem_cons_self)
    cases ls with
    | nil => rw [List.flatten_cons, List.flatten_nil, List.append_nil, hl]
    | cons m ms =>
      -- a line that is followed by another one ends in a line feed
      have hend : EndsLine l := .inr (List.rel_of_pairwise_cons h.full List.mem_cons_self)
      rw [List.flatten_cons, lines_append hend, ih (h.sublist (List.sublist_cons_self _ _)), hl]
      rfl

/-- Every line of a text that ends a line ends in a line feed. -/
theorem endsLine_of_mem_lines {text line : List Char} (h : EndsLine text)
    (hline : line ∈ lines text) : EndsLine line := by
  obtain ⟨earlier, later, hlines⟩ := List.append_of_mem hline
  cases later with
  | nil =>
    -- the last line ends where the text ends
    rw [← flatten_lines text, hlines, List.flatten_append, List.flatten_singleton] at h
    exact h.of_append
  | cons next later =>
    have hfull := (areLines_lines text).full
    rw [hlines] at hfull
    exact .inr (List.rel_of_pairwise_cons (List.pairwise_append.mp hfull).2.1 List.mem_cons_self)

/-! ### A line and its place -/

/-- **A line of a text**, with what stands before and behind it: it begins where the text begins or
behind a line feed, and reaches to the next line feed or to the end of the text. -/
structure LineAt (text before line after : List Char) : Prop where
  text_eq : text = before ++ (line ++ after)
  begins : EndsLine before
  nonempty : line ≠ []
  inner : '\n' ∉ line.dropLast
  ends : line.getLast? = some '\n' ∨ after = []

theorem endsLine_flatten {ls : List (List Char)} (h : ∀ l ∈ ls, l.getLast? = some '\n') :
    EndsLine ls.flatten := by
  induction ls with
  | nil => exact .nil
  | cons l ls ih =>
    obtain ⟨hl, hls⟩ := List.forall_mem_cons.mp h
    rw [List.flatten_cons]
    exact EndsLine.append (.inr hl) (ih hls)

/-- From where a line begins, it is the first line. -/
theorem LineAt.lines_eq {text before line after : List Char} (h : LineAt text before line after) :
    lines (line ++ after) = line :: lines after := by
  rcases h.ends with hend | rfl
  · rw [lines_append (.inr hend), lines_eq_singleton h.nonempty h.inner]
    rfl
  · rw [List.append_nil, lines_eq_singleton h.nonempty h.inner]
    rfl

/-- The lines of a text are the pieces that it is cut into. -/
theorem lineAt_iff {text before line after : List Char} :
    LineAt text before line after ↔ ∃ earlier later, lines text = earlier ++ line :: later ∧
      before = earlier.flatten ∧ after = later.flatten := by
  constructor
  · intro h
    refine ⟨lines before, lines after, ?_, (flatten_lines _).symm, (flatten_lines _).symm⟩
    rw [h.text_eq, lines_append h.begins, h.lines_eq]
  · rintro ⟨earlier, later, hlines, rfl, rfl⟩
    have hare := areLines_lines text
    rw [hlines] at hare
    have hmem : line ∈ earlier ++ line :: later := List.mem_append_right _ List.mem_cons_self
    obtain ⟨-, hlater, hfull⟩ := List.pairwise_append.mp hare.full
    refine ⟨?_, endsLine_flatten fun l hl => hfull l hl line List.mem_cons_self,
      hare.nonempty line hmem, hare.inner line hmem, ?_⟩
    · rw [← flatten_lines text, hlines, List.flatten_append, List.flatten_cons]
    · cases later with
      | nil => exact .inr rfl
      | cons next later => exact .inl (List.rel_of_pairwise_cons hlater List.mem_cons_self)

end CondRegions.Text
