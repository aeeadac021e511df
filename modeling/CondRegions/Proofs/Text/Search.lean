import CondRegions.Text.Basic
import Mathlib.Data.List.Basic

/-!
# Searching

`Text.splitAtFirst` cuts a text around the first occurrence of another one: there is an occurrence
where it cuts, and none begins earlier (`Text.splitAtFirst_eq_some_iff`). Where there is none, it
does not cut (`Text.splitAtFirst_eq_none_iff`). What stands behind the first occurrence does not
matter to it (`Text.splitAtFirst_append`).
-/

namespace CondRegions.Text

/-- What a text begins with ends before a given character or takes it in. -/
theorem prefix_or_mem {start cs more : List Char} {c : Char} (h : start <+: cs ++ c :: more) :
    start <+: cs ∨ c ∈ start := by
  obtain ⟨behind, hbehind⟩ := h
  rcases List.append_eq_append_iff.mp hbehind with ⟨beyond, hcs, -⟩ | ⟨beyond, hstart, hmore⟩
  · exact .inl ⟨beyond, hcs.symm⟩
  cases beyond with
  | nil =>
    rw [List.append_nil] at hstart
    exact .inl (hstart ▸ List.prefix_refl _)
  | cons d beyond =>
    obtain ⟨rfl, -⟩ := List.cons.inj hmore
    rw [hstart]
    exact .inr (List.mem_append_right _ List.mem_cons_self)

theorem splitAtFirst_of_isPrefix {needle cs rest : List Char} (h : needle ++ rest = cs) :
    splitAtFirst needle cs = some ([], rest) := by
  have hrest : needle.isPrefixOf? cs = some rest := List.isPrefixOf?_eq_some_iff_append_eq.mpr h
  cases cs with
  | nil =>
    obtain ⟨rfl, rfl⟩ := List.append_eq_nil_iff.mp h
    rfl
  | cons c cs => rw [splitAtFirst, hrest]

theorem splitAtFirst_cons {needle : List Char} {c : Char} {cs : List Char}
    (h : ∀ rest, needle ++ rest ≠ c :: cs) :
    splitAtFirst needle (c :: cs) =
      (splitAtFirst needle cs).map fun (before, rest) => (c :: before, rest) := by
  rw [splitAtFirst]
  split
  · next rest hrest => exact absurd (List.isPrefixOf?_eq_some_iff_append_eq.mp hrest) (h rest)
  · rfl

/-- **The first occurrence.** -/
theorem splitAtFirst_eq_some_iff {needle cs before rest : List Char} :
    splitAtFirst needle cs = some (before, rest) ↔
      cs = before ++ needle ++ rest ∧
        ∀ before' rest', cs = before' ++ needle ++ rest' → before.length ≤ before'.length := by
  induction cs generalizing before with
  | nil =>
    unfold splitAtFirst
    cases needle with
    | nil => cases before <;> cases rest <;> simp
    | cons d needle => simp
  | cons c cs ih =>
    by_cases hhere : ∃ rest', needle ++ rest' = c :: cs
    · -- an occurrence at the very start
      obtain ⟨rest', hrest'⟩ := hhere
      rw [splitAtFirst_of_isPrefix hrest']
      constructor
      · intro h
        obtain ⟨rfl, rfl⟩ := Prod.mk.inj (Option.some.inj h)
        exact ⟨hrest'.symm, fun _ _ _ => Nat.zero_le _⟩
      · rintro ⟨hcs, hfirst⟩
        obtain rfl : before = [] := List.length_eq_zero_iff.mp
          (Nat.le_zero.mp (hfirst [] rest' hrest'.symm))
        rw [hcs] at hrest'
        rw [List.append_cancel_left hrest']
    · rw [not_exists] at hhere
      -- no occurrence is at the start, so all of them are behind the first character
      have hbehind : ∀ before' rest', c :: cs = before' ++ needle ++ rest' →
          ∃ tail, before' = c :: tail ∧ cs = tail ++ needle ++ rest' := by
        intro before' rest' h
        cases before' with
        | nil => exact absurd h.symm (hhere rest')
        | cons d tail =>
          obtain ⟨rfl, htail⟩ := List.cons.inj h
          exact ⟨tail, rfl, htail⟩
      rw [splitAtFirst_cons hhere, Option.map_eq_some_iff]
      constructor
      · rintro ⟨⟨tail, rest'⟩, hsplit, heq⟩
        obtain ⟨rfl, rfl⟩ := Prod.mk.inj heq
        obtain ⟨rfl, hfirst⟩ := ih.mp hsplit
        refine ⟨rfl, fun before' rest'' h => ?_⟩
        obtain ⟨tail', rfl, htail'⟩ := hbehind before' rest'' h
        exact Nat.succ_le_succ (hfirst tail' rest'' htail')
      · rintro ⟨hcs, hfirst⟩
        obtain ⟨tail, rfl, htail⟩ := hbehind before rest hcs
        refine ⟨(tail, rest), ih.mpr ⟨htail, fun tail' rest' h => ?_⟩, rfl⟩
        refine Nat.le_of_succ_le_succ (hfirst (c :: tail') rest' ?_)
        rw [h, List.cons_append, List.cons_append]

/-- **No occurrence.** -/
theorem splitAtFirst_eq_none_iff {needle cs : List Char} :
    splitAtFirst needle cs = none ↔ ¬ needle <:+: cs := by
  induction cs with
  | nil =>
    unfold splitAtFirst
    cases needle <;> simp
  | cons c cs ih =>
    rw [List.infix_cons_iff, not_or]
    by_cases hhere : ∃ rest, needle ++ rest = c :: cs
    · obtain ⟨rest, hrest⟩ := hhere
      rw [splitAtFirst_of_isPrefix hrest]
      constructor
      · intro h
        cases h
      · rintro ⟨hnot, -⟩
        exact absurd ⟨rest, hrest⟩ hnot
    · have hnot : ¬ needle <+: c :: cs := hhere
      rw [not_exists] at hhere
      rw [splitAtFirst_cons hhere, Option.map_eq_none_iff, ih, and_iff_right hnot]

/-- An occurrence in `xs ++ ys` whose last character is not in `ys` lies in `xs`. -/
theorem infix_of_append {init xs ys : List Char} {d : Char} (hd : d ∉ ys)
    (h : init ++ [d] <:+: xs ++ ys) : init ++ [d] <:+: xs := by
  obtain ⟨before, after, heq⟩ := h
  rcases List.append_eq_append_iff.mp heq with ⟨rest, hxs, -⟩ | ⟨rest, hoccurrence, hys⟩
  · exact ⟨before, rest, hxs.symm⟩
  · -- the last character of the occurrence would stand in `ys`, unless it ends where `xs` does
    rcases List.eq_nil_or_concat' rest with rfl | ⟨rest', e, rfl⟩
    · rw [List.append_nil] at hoccurrence
      exact ⟨before, [], by rw [hoccurrence, List.append_nil]⟩
    · rw [← List.append_assoc, ← List.append_assoc] at hoccurrence
      obtain ⟨-, hlast⟩ := List.append_inj' hoccurrence rfl
      obtain rfl : d = e := List.singleton_inj.mp hlast
      refine absurd ?_ hd
      rw [hys]
      exact List.mem_append_left _ (List.mem_append_right _ (List.mem_singleton_self d))

/-- An occurrence that begins earlier than another one lies in what the other one ends. -/
theorem append_isPrefix_of_length_lt {needle xs ys before rest : List Char}
    (h : xs ++ needle ++ ys = before ++ needle ++ rest) (hlt : before.length < xs.length) :
    before ++ needle <+: xs ++ needle.dropLast := by
  have hinit : xs ++ needle.dropLast <+: xs ++ needle ++ ys := by
    rw [List.append_assoc]
    exact (List.prefix_append_right_inj xs).mpr
      ((List.dropLast_prefix needle).trans (List.prefix_append needle ys))
  refine List.prefix_of_prefix_length_le ⟨rest, h.symm⟩ hinit ?_
  rw [List.length_append, List.length_append, List.length_dropLast]
  omega

/-- An occurrence is the first one if none is completed before it is. -/
theorem splitAtFirst_of_not_infix {needle xs : List Char} (h : ¬ needle <:+: xs ++ needle.dropLast)
    (ys : List Char) : splitAtFirst needle (xs ++ needle ++ ys) = some (xs, ys) := by
  refine splitAtFirst_eq_some_iff.mpr ⟨rfl, fun before rest heq => ?_⟩
  by_contra hlt
  have hprefix := append_isPrefix_of_length_lt heq (Nat.lt_of_not_le hlt)
  exact h ((List.suffix_append before needle).isInfix.trans hprefix.isInfix)

theorem splitAtFirst_char {c : Char} {xs : List Char} (h : c ∉ xs) (ys : List Char) :
    splitAtFirst [c] (xs ++ c :: ys) = some (xs, ys) := by
  have hnot : ¬ [c] <:+: xs ++ [c].dropLast := by
    rw [List.dropLast_singleton, List.append_nil]
    intro hoccurs
    exact h (hoccurs.subset (List.mem_singleton_self c))
  rw [← splitAtFirst_of_not_infix hnot ys, List.append_assoc, List.singleton_append]

/-- What follows does not matter to the first occurrence. -/
theorem splitAtFirst_append {needle cs before rest : List Char}
    (h : splitAtFirst needle cs = some (before, rest)) (more : List Char) :
    splitAtFirst needle (cs ++ more) = some (before, rest ++ more) := by
  obtain ⟨rfl, hfirst⟩ := splitAtFirst_eq_some_iff.mp h
  refine splitAtFirst_eq_some_iff.mpr ⟨by rw [List.append_assoc], fun before' rest' heq => ?_⟩
  by_contra hlt
  -- an earlier occurrence would be one in the text without what follows
  rw [List.append_assoc] at heq
  have hprefix : before' ++ needle <+: before ++ needle ++ rest := by
    refine (append_isPrefix_of_length_lt heq (Nat.lt_of_not_le hlt)).trans ?_
    rw [List.append_assoc]
    exact (List.prefix_append_right_inj before).mpr
      ((List.dropLast_prefix needle).trans (List.prefix_append needle rest))
  obtain ⟨rest'', hrest⟩ := hprefix
  exact hlt (hfirst before' rest'' hrest.symm)

end CondRegions.Text
