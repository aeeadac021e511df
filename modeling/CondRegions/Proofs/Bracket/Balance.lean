import CondRegions.Proofs.Bracket.Matching

/-!
# Balance

Whether a word can be matched is a question of counting. A word is balanced if no initial segment of
it has more closing than opening brackets and the whole word has as many of one sort as of the
other. The matcher of a word of one style succeeds on exactly the balanced words
(`Word.balanced_iff`), and where it stops at a stray end marker, that marker is the first one at
which the end markers outnumber the start markers (`Word.firstExcess_of_stray`).

Both are read off one count, kept along the word: brackets on the stack and opening brackets seen so
far against closing brackets seen so far.
-/

namespace CondRegions

namespace Word

/-- **Balance.** No initial segment has more closing than opening brackets, and the whole word has
as many of one sort as of the other. -/
structure Balanced (w : List Bracket) : Prop where
  prefixes : ∀ u, u <+: w → (closings u).length ≤ (openings u).length
  whole : (closings w).length = (openings w).length

/-- **The first excess.** The end marker `e` is the first at which the end markers seen so far
outnumber the start markers seen so far. -/
def FirstExcess (w : List Bracket) (e : Marker) : Prop :=
  ∃ u f v, w = u ++ .closing f e :: v ∧
    (∀ t, t <+: u → (closings t).length ≤ (openings t).length) ∧
    (openings (u ++ [.closing f e])).length < (closings (u ++ [.closing f e])).length

/-! ### Counting along the matcher -/

/-- What holds of `n` before a bracket and of the rest of the word holds of every initial
segment. -/
theorem prefix_count_cons {n : Nat} {b : Bracket} {w : List Bracket}
    (h : ∀ u, u <+: w →
      (closings (b :: u)).length ≤ n + (openings (b :: u)).length) :
    ∀ u, u <+: b :: w → (closings u).length ≤ n + (openings u).length := by
  intro u hu
  rcases List.prefix_cons_iff.mp hu with rfl | ⟨t, rfl, ht⟩
  · exact Nat.zero_le _
  · exact h t ht

/-- When the matcher succeeds, the end markers never outnumber what is open and what has been
opened, and in the end the two are equal. -/
theorem count_of_pairings_ok {opened : List (Family × Marker)} {w : List Bracket}
    {ps : List Pairing} (h : pairings opened w = .ok ps) :
    (∀ u, u <+: w → (closings u).length ≤ opened.length + (openings u).length) ∧
      (closings w).length = opened.length + (openings w).length := by
  induction w generalizing opened ps with
  | nil =>
    obtain ⟨rfl, -⟩ := pairings_nil_ok h
    refine ⟨fun u hu => ?_, rfl⟩
    rw [List.prefix_nil.mp hu]
    exact Nat.zero_le _
  | cons b w ih =>
    cases b with
    | opening f m =>
      -- one more on the stack, one less still to be opened: the sum stays
      rw [pairings_opening] at h
      obtain ⟨hpre, hall⟩ := ih h
      simp only [List.length_cons] at hpre hall
      refine ⟨prefix_count_cons fun u hu => ?_, ?_⟩
      · have := hpre u hu
        simp only [closings_opening, openings_opening, List.length_cons]
        omega
      · simp only [closings_opening, openings_opening, List.length_cons]
        omega
    | closing f m =>
      -- both sides lose one
      obtain ⟨o, rest, ps', rfl, h', -⟩ := pairings_closing_ok h
      obtain ⟨hpre, hall⟩ := ih h'
      refine ⟨prefix_count_cons fun u hu => ?_, ?_⟩
      · have := hpre u hu
        simp only [closings_closing, openings_closing, List.length_cons]
        omega
      · simp only [closings_closing, openings_closing, List.length_cons]
        omega

/-- When the matcher leaves something open, there are too few end markers. -/
theorem count_of_pairings_unclosed {opened : List (Family × Marker)} {w : List Bracket} {o : Marker}
    (h : pairings opened w = .error (.unclosed o)) :
    (closings w).length < opened.length + (openings w).length := by
  induction w generalizing opened with
  | nil =>
    cases opened with
    | nil => exact absurd h nofun
    | cons top rest => simp
  | cons b w ih =>
    cases b with
    | opening f m =>
      rw [pairings_opening] at h
      have := ih h
      simp only [closings_opening, openings_opening, List.length_cons] at this ⊢
      omega
    | closing f m =>
      cases opened with
      | nil => exact absurd h nofun
      | cons top rest =>
        -- the error comes from the rest of the word, since a stray end marker is another error
        obtain ⟨g, p⟩ := top
        rw [pairings_closing_cons] at h
        by_cases hfg : g = f
        · rw [if_pos hfg] at h
          cases hps : pairings rest w with
          | ok ps => rw [hps] at h; exact absurd h nofun
          | error e =>
            rw [hps] at h
            obtain rfl : e = .unclosed o := Except.error.inj h
            have := ih hps
            simp only [closings_closing, openings_closing, List.length_cons]
            omega
        · rw [if_neg hfg] at h
          exact absurd (Except.error.inj h) nofun

/-- Where the matcher of a word of one style stops at a stray end marker, all that was open has been
closed, and the end markers before it did not outnumber what was open. -/
theorem count_of_pairings_stray {family : Family} {opened : List Marker} {w : List Bracket}
    {e : Marker} (hf : ∀ b ∈ w, b.family = family)
    (h : pairings (opened.map (family, ·)) w = .error (.stray e)) :
    ∃ u v, w = u ++ .closing family e :: v ∧
      (∀ t, t <+: u → (closings t).length ≤ opened.length + (openings t).length) ∧
      (closings u).length = opened.length + (openings u).length := by
  induction w generalizing opened with
  | nil =>
    cases opened with
    -- at the end of the word nothing is stray
    | nil => cases h
    | cons o rest =>
      rw [List.map_cons, pairings, List.getLast?_cons] at h
      cases Except.error.inj h
  | cons b w ih =>
    have hfw : ∀ c ∈ w, c.family = family := fun c hc => hf c (List.mem_cons_of_mem _ hc)
    cases b with
    | opening f m =>
      obtain rfl : f = family := hf _ List.mem_cons_self
      rw [pairings_opening, ← List.map_cons] at h
      obtain ⟨u, v, rfl, hpre, hall⟩ := ih hfw h
      simp only [List.length_cons] at hpre hall
      refine ⟨.opening f m :: u, v, rfl, prefix_count_cons fun t ht => ?_, ?_⟩
      · have := hpre t ht
        simp only [closings_opening, openings_opening, List.length_cons]
        omega
      · simp only [closings_opening, openings_opening, List.length_cons]
        omega
    | closing f m =>
      obtain rfl : f = family := hf _ List.mem_cons_self
      cases opened with
      | nil =>
        -- this is the stray end marker, and nothing stands before it
        obtain rfl : m = e := PairingError.stray.inj (Except.error.inj h)
        refine ⟨[], w, rfl, fun t ht => ?_, rfl⟩
        rw [List.prefix_nil.mp ht]
        exact Nat.zero_le _
      | cons o rest =>
        -- there is only one style, so the bracket matches and the error comes later
        rw [List.map_cons, pairings_closing_cons, if_pos rfl] at h
        cases hps : pairings (rest.map (f, ·)) w with
        | ok ps => rw [hps] at h; cases h
        | error e' =>
          rw [hps] at h
          obtain rfl : e' = .stray e := Except.error.inj h
          obtain ⟨u, v, rfl, hpre, hall⟩ := ih hfw hps
          refine ⟨.closing f m :: u, v, rfl, prefix_count_cons fun t ht => ?_, ?_⟩
          · have := hpre t ht
            simp only [closings_closing, openings_closing, List.length_cons]
            omega
          · simp only [closings_closing, openings_closing, List.length_cons]
            omega

/-! ### Balance and the matcher -/

theorem balanced_of_pairings_ok {w : List Bracket} {ps : List Pairing}
    (h : pairings [] w = .ok ps) : Balanced w := by
  obtain ⟨hpre, hall⟩ := count_of_pairings_ok h
  exact ⟨fun u hu => by simpa using hpre u hu, by simpa using hall⟩

/-- The stray end marker that the matcher reports is the first excess. -/
theorem firstExcess_of_stray {family : Family} {w : List Bracket} {e : Marker}
    (hf : ∀ b ∈ w, b.family = family) (h : pairings [] w = .error (.stray e)) :
    FirstExcess w e := by
  obtain ⟨u, v, hw, hpre, hall⟩ := @count_of_pairings_stray family [] w e hf h
  refine ⟨u, family, v, hw, fun t ht => by simpa using hpre t ht, ?_⟩
  simp only [List.length_nil, Nat.zero_add] at hall
  simp [hall]

/-- A word with an excess of end markers is not balanced. -/
theorem FirstExcess.not_balanced {w : List Bracket} {e : Marker} (h : FirstExcess w e) :
    ¬ Balanced w := by
  obtain ⟨u, f, v, rfl, -, hlt⟩ := h
  intro hb
  -- the segment up to and including the marker has one end marker too many
  have hle := hb.prefixes (u ++ [.closing f e]) ⟨v, by simp⟩
  omega

/-- **Balance and the matcher.** The matcher of a word of one style succeeds on exactly the balanced
words. -/
theorem balanced_iff {family : Family} {w : List Bracket} (hf : ∀ b ∈ w, b.family = family) :
    Balanced w ↔ ∃ ps, pairings [] w = .ok ps := by
  refine ⟨fun hb => ?_, fun ⟨ps, h⟩ => balanced_of_pairings_ok h⟩
  cases h : pairings [] w with
  | ok ps => exact ⟨ps, rfl⟩
  | error e =>
    cases e with
    | stray m => exact absurd hb (firstExcess_of_stray hf h).not_balanced
    | unclosed m =>
      -- a word with as many end as start markers leaves nothing open
      have hlt := count_of_pairings_unclosed h
      have heq := hb.whole
      simp only [List.length_nil, Nat.zero_add] at hlt
      omega

end Word

end CondRegions
