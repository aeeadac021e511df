import CondRegions.Proofs.Bracket.Word

/-!
# The matcher and the walk

`Word.pairings` reads a word of brackets from left to right with a stack of open start markers.
`Pairing.pair` does not: it walks through the start markers alone, looks ahead to the next one and
closes open start markers in cascades. On an ordered word with as many end markers as start markers
the two give the same pairings, in the same order, and the same error (`Word.pair_eq_pairings`).

The walk keeps one thing that carries the proof: between two start markers every end marker that
stands before the next start marker has been used up. So, as long as something is open, what is left
of the word begins with a start marker, and this is the form the induction needs. The cascade
reaches that form again (`Word.cascade_spec`): it takes exactly the closing brackets that the rest
of the word begins with.
-/

namespace CondRegions

namespace Word

/-- **The matcher.** An opening bracket goes on the stack, a closing one is paired with the topmost
open bracket, which must be of the same style. The level of a pairing is the number of brackets that
stay open around it. -/
def pairings : List (Family × Marker) → List Bracket → Except PairingError (List Pairing)
  | opened, [] =>
    match opened.getLast? with
    | some o => .error (.unclosed o.2)
    | none => .ok []
  | opened, .opening f m :: w => pairings ((f, m) :: opened) w
  | [], .closing _ m :: _ => .error (.stray m)
  | (f, o) :: opened, .closing g m :: w =>
    if f = g then (pairings opened w).map (⟨o, m, opened.length⟩ :: ·) else .error (.stray m)

@[simp] theorem pairings_opening (opened : List (Family × Marker)) (f : Family) (m : Marker)
    (w : List Bracket) :
    pairings opened (.opening f m :: w) = pairings ((f, m) :: opened) w := by
  cases opened <;> rfl

theorem pairings_closing_cons (f g : Family) (o m : Marker) (opened : List (Family × Marker))
    (w : List Bracket) :
    pairings ((f, o) :: opened) (.closing g m :: w) =
      if f = g then (pairings opened w).map (⟨o, m, opened.length⟩ :: ·) else .error (.stray m) :=
  rfl

/-- What a matcher that succeeds does at a closing bracket. -/
theorem pairings_closing_ok {opened : List (Family × Marker)} {g : Family} {m : Marker}
    {w : List Bracket} {ps : List Pairing} (h : pairings opened (.closing g m :: w) = .ok ps) :
    ∃ o rest ps', opened = (g, o) :: rest ∧ pairings rest w = .ok ps' ∧
      ps = ⟨o, m, rest.length⟩ :: ps' := by
  cases opened with
  | nil => exact absurd h nofun
  | cons top rest =>
    obtain ⟨f, o⟩ := top
    rw [pairings_closing_cons] at h
    -- a bracket of another style on top would have been an error
    by_cases hfg : f = g
    · rw [if_pos hfg] at h
      cases hps : pairings rest w with
      | error e => rw [hps] at h; exact absurd h nofun
      | ok ps' =>
        rw [hps] at h
        exact ⟨o, rest, ps', by rw [hfg], hps, (Except.ok.inj h).symm⟩
    · rw [if_neg hfg] at h
      exact absurd h nofun

/-- A matcher that succeeds at the end of the word has nothing open. -/
theorem pairings_nil_ok {opened : List (Family × Marker)} {ps : List Pairing}
    (h : pairings opened [] = .ok ps) : opened = [] ∧ ps = [] := by
  cases opened with
  | nil => exact ⟨rfl, (Except.ok.inj h).symm⟩
  | cons o rest =>
    rw [pairings, List.getLast?_cons] at h
    exact absurd h nofun

/-! ### The cascade -/

/-- A word behind the closing brackets that it begins with. -/
def afterClosings (w : List Bracket) : List Bracket :=
  w.dropWhile Bracket.isClosing

@[simp] theorem afterClosings_opening (f : Family) (m : Marker) (w : List Bracket) :
    afterClosings (.opening f m :: w) = .opening f m :: w := rfl

@[simp] theorem afterClosings_closing (f : Family) (m : Marker) (w : List Bracket) :
    afterClosings (.closing f m :: w) = afterClosings w := rfl

theorem afterClosings_sublist (w : List Bracket) : (afterClosings w).Sublist w :=
  List.dropWhile_sublist _

@[simp] theorem openings_afterClosings (w : List Bracket) :
    openings (afterClosings w) = openings w := by
  induction w with
  | nil => rfl
  | cons b w ih => cases b <;> simp [ih]

theorem map_nil_append (r : Except PairingError (List Pairing)) : r.map ([] ++ ·) = r := by
  cases r <;> rfl

theorem cascade_nil (next : Option Marker) (opened : List Marker) :
    Pairing.cascade next opened [] = .ok ⟨[], [], opened⟩ := by
  cases opened <;> rfl

theorem cascade_of_isBehind {next : Option Marker} {e : Marker}
    (h : Pairing.isBehind next e = true) (opened ends : List Marker) :
    Pairing.cascade next opened (e :: ends) = .ok ⟨[], e :: ends, opened⟩ := by
  cases opened <;> exact if_pos h

theorem cascade_stray {next : Option Marker} {e : Marker}
    (h : Pairing.isBehind next e = false) (ends : List Marker) :
    Pairing.cascade next [] (e :: ends) = .error (.stray e) :=
  if_neg (Bool.eq_false_iff.mp h)

theorem cascade_close {next : Option Marker} {e : Marker}
    (h : Pairing.isBehind next e = false) (o : Marker) (os ends : List Marker) :
    Pairing.cascade next (o :: os) (e :: ends) =
      (Pairing.cascade next os ends).map fun c =>
        { c with closed := ⟨o, e, os.length⟩ :: c.closed } :=
  if_neg (Bool.eq_false_iff.mp h)

/-- An end marker stands before all start markers that follow it in an ordered word. -/
theorem not_isBehind_of_ordered {f : Family} {e : Marker} {w : List Bracket}
    (hw : Ordered (.closing f e :: w)) : Pairing.isBehind (openings w).head? e = false := by
  cases hs : openings w with
  | nil => rfl
  | cons s starts =>
    obtain ⟨g, hg⟩ := mem_openings.mp (show s ∈ openings w by simp [hs])
    have h1 : e.span.stop ≤ s.span.start := hw.head_before hg
    have h2 : e.span.start < e.span.stop := hw.nonempty _ List.mem_cons_self
    simp only [Pairing.isBehind, List.head?_cons, Option.any_some, decide_eq_false_iff_not]
    omega

/-- **The cascade.** On what follows an end marker, the cascade either finds the stray end marker
that the matcher finds, or closes what the matcher closes up to the next start marker. -/
theorem cascade_spec {family : Family} {w : List Bracket} (hw : Ordered w)
    (hf : ∀ b ∈ w, b.family = family) (opened : List Marker) :
    (∃ e, Pairing.cascade (openings w).head? opened (closings w) = .error (.stray e) ∧
        pairings (opened.map (family, ·)) w = .error (.stray e)) ∨
    ∃ c, Pairing.cascade (openings w).head? opened (closings w) = .ok c ∧
      c.ends = closings (afterClosings w) ∧
      c.opened.length + (closings w).length = opened.length + c.ends.length ∧
      pairings (opened.map (family, ·)) w =
        (pairings (c.opened.map (family, ·)) (afterClosings w)).map (c.closed ++ ·) := by
  induction w generalizing opened with
  | nil =>
    exact .inr ⟨⟨[], [], opened⟩, cascade_nil _ _, rfl, rfl, (map_nil_append _).symm⟩
  | cons b w ih =>
    cases b with
    | opening f n =>
      -- the next start marker stands before all end markers that are left: nothing is closed
      refine .inr ⟨⟨[], closings w, opened⟩, ?_, rfl, rfl, (map_nil_append _).symm⟩
      simp only [openings_opening, closings_opening, List.head?_cons]
      cases hc : closings w with
      | nil => exact cascade_nil _ _
      | cons e ends =>
        obtain ⟨g, hg⟩ := mem_closings.mp (show e ∈ closings w by simp [hc])
        have h1 : n.span.stop ≤ e.span.start := hw.head_before hg
        have h2 : n.span.start < n.span.stop := hw.nonempty _ List.mem_cons_self
        refine cascade_of_isBehind ?_ _ _
        simp only [Pairing.isBehind, Option.any_some, decide_eq_true_eq]
        omega
    | closing f e =>
      obtain rfl : f = family := hf _ List.mem_cons_self
      have hb := not_isBehind_of_ordered hw
      cases opened with
      | nil =>
        -- nothing is open: both stop at this end marker
        refine .inl ⟨e, ?_, rfl⟩
        rw [openings_closing, closings_closing]
        exact cascade_stray hb _
      | cons o os =>
        -- the matcher closes `o` here, and so does the cascade
        have hmatch : pairings ((o :: os).map (f, ·)) (.closing f e :: w) =
            (pairings (os.map (f, ·)) w).map (⟨o, e, os.length⟩ :: ·) := by
          rw [List.map_cons, pairings_closing_cons, if_pos rfl, List.length_map]
        rw [openings_closing, closings_closing, cascade_close hb, hmatch, afterClosings_closing]
        rcases ih hw.tail (fun b hb => hf b (List.mem_cons_of_mem _ hb)) os with
          ⟨e', h1, h2⟩ | ⟨c, h1, h2, h3, h4⟩
        · exact .inl ⟨e', by rw [h1]; rfl, by rw [h2]; rfl⟩
        · refine .inr ⟨{ c with closed := ⟨o, e, os.length⟩ :: c.closed }, by rw [h1]; rfl, h2,
            ?_, ?_⟩
          · simp only [List.length_cons]
            omega
          · rw [h4]
            cases pairings (c.opened.map (f, ·)) (afterClosings w) <;> rfl

/-! ### The walk -/

/-- The word does not begin with a closing bracket. -/
def StartsOpen (w : List Bracket) : Prop :=
  afterClosings w = w

theorem startsOpen_afterClosings (w : List Bracket) : StartsOpen (afterClosings w) := by
  induction w with
  | nil => rfl
  | cons b w ih =>
    cases b with
    | opening f m => rfl
    | closing f m => exact ih

theorem not_startsOpen_closing (f : Family) (m : Marker) (w : List Bracket) :
    ¬ StartsOpen (.closing f m :: w) := by
  intro h
  have hlen := congrArg List.length h
  have hle := (afterClosings_sublist w).length_le
  rw [afterClosings_closing, List.length_cons] at hlen
  omega

/-- **The walk is the matcher.** On an ordered word of one style whose end markers are as many as
what is open and what is still to be opened, walking through the start markers with cascades gives
what the matcher gives. -/
theorem pair_eq_pairings {family : Family} {w : List Bracket} (hw : Ordered w)
    (hf : ∀ b ∈ w, b.family = family) {opened : List Marker}
    (hlen : opened.length + (openings w).length = (closings w).length)
    (hopen : opened = [] ∨ StartsOpen w) :
    Pairing.pair opened (openings w) (closings w) = pairings (opened.map (family, ·)) w := by
  induction hn : w.length using Nat.strongRecOn generalizing w opened with
  | ind n ih =>
  subst hn
  match w with
  | [] =>
    obtain rfl : opened = [] := List.length_eq_zero_iff.mp (by simpa using hlen)
    rfl
  | .closing f e :: w =>
    -- an end marker that comes first is stray; the walk sees it when it turns to the next start
    -- marker
    obtain rfl : opened = [] := hopen.resolve_right (not_startsOpen_closing f e w)
    cases hs : openings w with
    | nil => simp [hs] at hlen
    | cons s starts =>
      obtain ⟨g, hg⟩ := mem_openings.mp (show s ∈ openings w by simp [hs])
      have h1 : e.span.stop ≤ s.span.start := hw.head_before hg
      have h2 : e.span.start < e.span.stop := hw.nonempty _ List.mem_cons_self
      have h3 : s.span.start < s.span.stop := hw.nonempty _ (List.mem_cons_of_mem _ hg)
      rw [openings_closing, closings_closing, hs, Pairing.pair, if_pos (by omega)]
      rfl
  | [.opening f s] => simp at hlen
  | .opening f s :: .closing g e :: w =>
    obtain rfl : f = family := hf _ List.mem_cons_self
    obtain rfl : g = f := hf _ (List.mem_cons_of_mem _ List.mem_cons_self)
    have hse : s.span.stop ≤ e.span.start := hw.head_before List.mem_cons_self
    have hnext : Pairing.isBefore e (openings w).head? = true := by
      cases hs : openings w with
      | nil => rfl
      | cons n starts =>
        obtain ⟨h, hh⟩ := mem_openings.mp (show n ∈ openings w by simp [hs])
        have h1 : e.span.stop ≤ n.span.start := hw.tail.head_before hh
        have h2 : e.span.start < e.span.stop :=
          hw.nonempty _ (List.mem_cons_of_mem _ List.mem_cons_self)
        simp only [Pairing.isBefore, List.head?_cons, Option.all_some, decide_eq_true_eq]
        omega
    have hfw : ∀ b ∈ w, b.family = g := fun b hb =>
      hf b (List.mem_cons_of_mem _ (List.mem_cons_of_mem _ hb))
    simp only [openings_opening, openings_closing, closings_opening, closings_closing,
      List.length_cons] at hlen ⊢
    rw [Pairing.pair, if_neg (by omega), if_pos hnext, pairings_opening, pairings_closing_cons,
      if_pos rfl, List.length_map]
    -- `s` is closed at once; the cascade then closes what the matcher closes up to the next start
    rcases cascade_spec hw.tail.tail hfw opened with ⟨e', h1, h2⟩ | ⟨c, h1, h2, h3, h4⟩
    · rw [h1, h2]
      rfl
    · have hshort : (afterClosings w).length <
          (Bracket.opening g s :: .closing g e :: w).length := by
        have hle := (afterClosings_sublist w).length_le
        simp only [List.length_cons]
        omega
      have hrec : Pairing.pair c.opened (openings w) c.ends =
          pairings (c.opened.map (g, ·)) (afterClosings w) := by
        rw [h2, ← openings_afterClosings w]
        refine ih _ hshort (hw.tail.tail.sublist (afterClosings_sublist w))
          (fun b hb => hfw b ((afterClosings_sublist w).mem hb)) ?_
          (.inr (startsOpen_afterClosings w)) rfl
        rw [openings_afterClosings, ← h2]
        omega
      rw [h1, h4, ← hrec]
      cases hp : Pairing.pair c.opened (openings w) c.ends with
      | error e => simp [bind, Except.bind, Except.map, hp]
      | ok later => simp [bind, Except.bind, Except.map, pure, Except.pure, hp]
  | .opening f s :: .opening g s' :: w =>
    obtain rfl : f = family := hf _ List.mem_cons_self
    -- the next start marker stands before the next end marker: `s` goes on the stack
    cases hc : closings w with
    | nil => simp [hc] at hlen
    | cons e ends =>
      obtain ⟨h, hh⟩ := mem_closings.mp (show e ∈ closings w by simp [hc])
      have hse : s.span.stop ≤ e.span.start :=
        hw.head_before (List.mem_cons_of_mem _ hh)
      have hse' : s'.span.stop ≤ e.span.start := hw.tail.head_before hh
      have hs' : s'.span.start < s'.span.stop :=
        hw.nonempty _ (List.mem_cons_of_mem _ List.mem_cons_self)
      have hnext : Pairing.isBefore e (some s') = false := by
        simp only [Pairing.isBefore, Option.all_some, decide_eq_false_iff_not]
        omega
      have hrec : Pairing.pair (s :: opened) (openings (.opening g s' :: w))
          (closings (.opening g s' :: w)) =
            pairings ((s :: opened).map (f, ·)) (.opening g s' :: w) := by
        refine ih _ (by simp) hw.tail (fun b hb => hf b (List.mem_cons_of_mem _ hb)) ?_
          (.inr rfl) rfl
        simp only [openings_opening, closings_opening, List.length_cons] at hlen ⊢
        omega
      simp only [openings_opening, closings_opening, hc] at hrec ⊢
      rw [Pairing.pair, if_neg (by omega), List.head?_cons, hnext, pairings_opening,
        ← List.map_cons]
      exact hrec

end Word

end CondRegions
