import CondRegions.Proofs.Bracket.Matching
import Mathlib.Data.Fintype.Card
import Mathlib.Data.List.NodupEquivFin
import Mathlib.Data.List.Perm.Basic

/-!
# The walk through any markers

Resolving is given two lists of markers. If they come from a text, they are sorted and keep their
distance, but the walk does not ask for that, and what is said here holds of all lists: unsorted,
overlapping, with equal markers in several places.

The walk is a loop over the start markers (`Walk.turns`) and two checks behind it (`Walk.finish`).
Between two start markers it stands with the pairings made so far, the start markers that are open,
and the end markers that are left. It never loses a marker and never uses one twice: end markers are
taken from the front, and a start marker is still to come, open, or paired (`Walk.Tallies`). One
turn of the loop keeps this up (`Walk.Tallies.turn`), so all turns do (`Walk.Tallies.turns`).

All the rest is counting. If there are as many start markers as end markers, then at every point as
many end markers are left as start markers are open or to come. So there is always one when the loop
asks for it. The last turn takes all of them, since no start marker stops it, and then nothing can
be open: neither check behind the loop ever finds anything (`Walk.Tallies.at_end`).

`resolve_any_markers` says what this means for resolving.
-/

namespace CondRegions

open Pairing

/-! ### Lists in another order -/

/-- The members of a list in another order: a bijection takes each place to one with the same
member. -/
theorem exists_equiv_of_perm {α : Type} {xs ys : List α} (h : xs.Perm ys) :
    ∃ place : Fin xs.length ≃ Fin ys.length, ∀ i, ys.get (place i) = xs.get i := by
  -- the places in `ys`, listed in the order in which their members stand in `xs`
  have hplaces : List.Forall₂ (fun a i => a = ys.get i) ys (List.finRange ys.length) := by
    rw [List.forall₂_iff_get]
    refine ⟨List.length_finRange.symm, fun i hi hi' => ?_⟩
    simp only [List.get_eq_getElem, List.getElem_finRange, Fin.val_cast]
  obtain ⟨order, horder, hperm⟩ := List.perm_comp_forall₂ h hplaces
  have hnodup : order.Nodup := hperm.nodup_iff.mpr (List.nodup_finRange _)
  have hall : ∀ i, i ∈ order := fun i => hperm.mem_iff.mpr (List.mem_finRange i)
  refine ⟨(finCongr horder.length_eq).trans (hnodup.getEquivOfForallMemList order hall), ?_⟩
  intro i
  exact (horder.get i.isLt (horder.length_eq ▸ i.isLt)).symm

/-- A family listed along a bijection of its indices. -/
theorem ofFn_comp_equiv_perm {α : Type} {n k : Nat} (place : Fin n ≃ Fin k) (f : Fin k → α) :
    (List.ofFn fun i => f (place i)).Perm (List.ofFn f) := by
  obtain rfl : n = k := by simpa using Fintype.card_congr place
  exact Equiv.Perm.ofFn_comp_perm place f

/-! ### The loop and what follows it -/

/-- Where the walk stands between two start markers. -/
structure Walk where
  /-- The pairings made so far, in the order in which they are made. -/
  closed : List Pairing
  /-- The start markers still open, the innermost first. -/
  opened : List Marker
  /-- The end markers that are left. -/
  ends : List Marker

namespace Walk

/-- The start of the walk. -/
def initial (ends : List Marker) : Walk := ⟨[], [], ends⟩

/-- **One turn of the loop**, for the start marker `s` which `next` follows. -/
def turn (s : Marker) (next : Option Marker) (w : Walk) : Except PairingError Walk :=
  match w.ends with
  | [] => .error (.unclosed s)
  | e :: ends =>
    if e.span.start < s.span.stop then .error (.stray e)
    else if isBefore e next then
      (cascade next w.opened ends).map fun c =>
        ⟨w.closed ++ ⟨s, e, w.opened.length⟩ :: c.closed, c.opened, c.ends⟩
    else .ok ⟨w.closed, s :: w.opened, e :: ends⟩

/-- **The loop** over the start markers. -/
def turns : List Marker → Walk → Except PairingError Walk
  | [], w => .ok w
  | s :: starts, w => (w.turn s starts.head?).bind (turns starts)

/-- **The checks behind the loop**: no start marker may be open and no end marker left. -/
def finish (w : Walk) : Except PairingError (List Pairing) :=
  match w.opened.getLast?, w.ends with
  | some o, _ => .error (.unclosed o)
  | none, e :: _ => .error (.stray e)
  | none, [] => .ok w.closed

/-- From wherever the walk stands, pairing goes on with the loop and ends with the checks. -/
theorem map_pair_eq (starts : List Marker) (w : Walk) :
    (pair w.opened starts w.ends).map (w.closed ++ ·) = (turns starts w).bind finish := by
  induction starts generalizing w with
  | nil =>
    obtain ⟨closed, opened, ends⟩ := w
    show (pair opened [] ends).map (closed ++ ·) = finish ⟨closed, opened, ends⟩
    unfold pair finish
    cases opened.getLast? with
    | some o => rfl
    | none =>
      cases ends with
      | nil => exact congrArg Except.ok (List.append_nil closed)
      | cons e ends => rfl
  | cons s starts ih =>
    obtain ⟨closed, opened, ends⟩ := w
    cases ends with
    | nil => rfl
    | cons e ends =>
      show _ =
        (Except.bind (turn s starts.head? ⟨closed, opened, e :: ends⟩) (turns starts)).bind finish
      unfold pair turn
      dsimp only
      by_cases hstray : e.span.start < s.span.stop
      · rw [if_pos hstray, if_pos hstray]
        rfl
      rw [if_neg hstray, if_neg hstray]
      by_cases hbefore : isBefore e starts.head? = true
      · -- `s` is closed at once, and then what the cascade closes
        rw [if_pos hbefore, if_pos hbefore]
        cases hcascade : cascade starts.head? opened ends with
        | error e' => rfl
        | ok c =>
          have hlater := ih ⟨closed ++ ⟨s, e, opened.length⟩ :: c.closed, c.opened, c.ends⟩
          show Except.map (closed ++ ·) ((pair c.opened starts c.ends).bind fun later =>
            .ok (⟨s, e, opened.length⟩ :: c.closed ++ later)) = (turns starts _).bind finish
          rw [← hlater]
          cases pair c.opened starts c.ends with
          | error e' => rfl
          | ok later => exact congrArg Except.ok (List.append_assoc _ _ _).symm
      · rw [if_neg hbefore, if_neg hbefore]
        exact ih ⟨closed, s :: opened, e :: ends⟩

/-- **Pairing is the loop with the checks behind it.** -/
theorem pair_eq (starts ends : List Marker) :
    pair [] starts ends = (turns starts (initial ends)).bind finish := by
  rw [← map_pair_eq starts (initial ends)]
  show _ = (pair [] starts ends).map ([] ++ ·)
  cases pair [] starts ends with
  | error e => rfl
  | ok ps => rfl

/-! ### Nothing is lost and nothing is used twice -/

/-- **Where the markers are.** Of the given start and end markers, `rest` being the start markers
still to come: the end markers of the pairings made so far are the first ones, in order, and those
that are left follow; each start marker is in one pairing, or open, or still to come. Behind the
last start marker no end marker is left. -/
structure Tallies (starts ends rest : List Marker) (w : Walk) : Prop where
  closings : w.closed.map (·.closing) ++ w.ends = ends
  openings : (w.closed.map (·.opening) ++ w.opened ++ rest).Perm starts
  last : rest = [] → w.ends = []

/-- **What a cascade does.** It fails at an end marker that closes nothing, or it closes open start
markers, the innermost first, by the first end markers. Only a start marker stops it before the end
markers are used up. -/
theorem cascade_cases (next : Option Marker) (opened ends : List Marker) :
    (∃ e ∈ ends, cascade next opened ends = .error (.stray e)) ∨
    ∃ c, cascade next opened ends = .ok c ∧ c.closed.map (·.closing) ++ c.ends = ends ∧
      c.closed.map (·.opening) ++ c.opened = opened ∧ (next = none → c.ends = []) := by
  induction ends generalizing opened with
  | nil => exact .inr ⟨_, Word.cascade_nil next opened, rfl, rfl, fun _ => rfl⟩
  | cons e ends ih =>
    cases hbehind : isBehind next e with
    | true =>
      refine .inr ⟨_, Word.cascade_of_isBehind hbehind opened ends, rfl, rfl, ?_⟩
      rintro rfl
      cases hbehind
    | false =>
      cases opened with
      | nil => exact .inl ⟨e, List.mem_cons_self, Word.cascade_stray hbehind ends⟩
      | cons o os =>
        rw [Word.cascade_close hbehind]
        rcases ih os with ⟨e', he', herror⟩ | ⟨c, hok, hclosings, hopenings, hlast⟩
        · exact .inl ⟨e', List.mem_cons_of_mem _ he', by rw [herror]; rfl⟩
        · refine .inr ⟨{ c with closed := ⟨o, e, os.length⟩ :: c.closed }, by rw [hok]; rfl,
            ?_, ?_, hlast⟩
          · exact congrArg (e :: ·) hclosings
          · exact congrArg (o :: ·) hopenings

namespace Tallies

variable {starts ends rest : List Marker} {s : Marker} {w : Walk}

/-- At the start of the walk all markers are still to come. -/
theorem initial (hlength : starts.length = ends.length) :
    Tallies starts ends starts (Walk.initial ends) := by
  refine ⟨rfl, List.Perm.refl _, ?_⟩
  rintro rfl
  exact List.length_eq_zero_iff.mp hlength.symm

/-- **The count.** As many end markers are left as start markers are open or to come. -/
theorem length_ends (h : Tallies starts ends rest w) (hlength : starts.length = ends.length) :
    w.ends.length = w.opened.length + rest.length := by
  have hclosings := congrArg List.length h.closings
  have hopenings := h.openings.length_eq
  simp only [List.length_append, List.length_map] at hclosings hopenings
  omega

/-- **One turn** keeps track of the markers, or fails at an end marker that closes nothing. There is
always an end marker for `s`. -/
theorem turn (h : Tallies starts ends (s :: rest) w) (hlength : starts.length = ends.length) :
    (∃ w', w.turn s rest.head? = .ok w' ∧ Tallies starts ends rest w') ∨
      ∃ e ∈ ends, w.turn s rest.head? = .error (.stray e) := by
  have hcount := h.length_ends hlength
  have hleft : ∀ e ∈ w.ends, e ∈ ends := by
    intro e he
    rw [← h.closings]
    exact List.mem_append_right _ he
  obtain ⟨closed, opened, left⟩ := w
  obtain ⟨hclosings, hopenings, -⟩ := h
  cases left with
  | nil => simp at hcount
  | cons e left =>
    unfold Walk.turn
    dsimp only at hleft ⊢
    split_ifs with hstray hbefore
    · exact .inr ⟨e, hleft e List.mem_cons_self, rfl⟩
    · rcases cascade_cases rest.head? opened left with
        ⟨e', he', herror⟩ | ⟨c, hok, hclosed, hopened, hlast⟩
      · exact .inr ⟨e', hleft e' (List.mem_cons_of_mem _ he'), by rw [herror]; rfl⟩
      · refine .inl ⟨_, by rw [hok]; rfl, ?_, ?_, fun hrest => hlast (by rw [hrest]; rfl)⟩
        · rw [← hclosings, ← hclosed, List.map_append, List.append_assoc]
          rfl
        · -- `s` and what the cascade closes are in pairings now
          refine List.Perm.trans ?_ hopenings
          rw [← hopened]
          simp only [List.map_append, List.map_cons, List.append_assoc, List.cons_append]
          refine List.Perm.append_left _ ?_
          rw [← List.append_assoc, ← List.append_assoc]
          exact List.perm_middle.symm
    · -- `s` is open now; a start marker follows, so this is not the last turn
      refine .inl ⟨_, rfl, hclosings, ?_, ?_⟩
      · refine List.Perm.trans ?_ hopenings
        simp only [List.append_assoc, List.cons_append]
        exact List.Perm.append_left _ List.perm_middle.symm
      · rintro rfl
        exact absurd rfl hbefore

/-- **All turns** keep track of the markers, or one of them fails at an end marker that closes
nothing. -/
theorem turns (h : Tallies starts ends rest w) (hlength : starts.length = ends.length) :
    (∃ w', Walk.turns rest w = .ok w' ∧ Tallies starts ends [] w') ∨
      ∃ e ∈ ends, Walk.turns rest w = .error (.stray e) := by
  induction rest generalizing w with
  | nil => exact .inl ⟨w, rfl, h⟩
  | cons s rest ih =>
    unfold Walk.turns
    rcases h.turn hlength with ⟨next, hturn, hnext⟩ | ⟨e, he, herror⟩
    · rw [hturn]
      exact ih hnext
    · exact .inr ⟨e, he, by rw [herror]; rfl⟩

/-- **Behind the loop** nothing is open and nothing is left. -/
theorem at_end (h : Tallies starts ends [] w) (hlength : starts.length = ends.length) :
    w.opened = [] ∧ w.ends = [] := by
  have hends := h.last rfl
  have hcount := h.length_ends hlength
  rw [hends] at hcount
  exact ⟨List.length_eq_zero_iff.mp hcount.symm, hends⟩

end Tallies

end Walk

/-! ### Pairings of places -/

/-- **Pairings of places.** A bijection takes each place among the start markers to a place among
the end markers, and the pairings, in whatever order, are those of the markers at these places. -/
def Pairing.MatchPlaces (starts ends : List Marker) (ps : List Pairing) : Prop :=
  ∃ (place : Fin starts.length ≃ Fin ends.length) (level : Fin starts.length → Nat),
    ps.Perm (List.ofFn fun i => ⟨starts.get i, ends.get (place i), level i⟩)

/-- The pairings of a walk that has come to its end match places. -/
theorem Walk.Tallies.matchPlaces {starts ends : List Marker} {w : Walk}
    (h : Tallies starts ends [] w) (hlength : starts.length = ends.length) :
    MatchPlaces starts ends w.closed := by
  obtain ⟨hopened, hends⟩ := h.at_end hlength
  have hopenings := h.openings
  have hclosings := h.closings
  rw [hopened, List.append_nil, List.append_nil] at hopenings
  rw [hends, List.append_nil] at hclosings
  obtain ⟨opening, hopening⟩ := exists_equiv_of_perm hopenings
  have hmap : (w.closed.map (·.opening)).length = w.closed.length := List.length_map _
  have hclosed : w.closed.length = ends.length := by rw [← hclosings, List.length_map]
  -- the pairing that is made as number `k` opens at `start k` and takes the end marker with number
  -- `k`
  let start : Fin w.closed.length ≃ Fin starts.length := (finCongr hmap.symm).trans opening
  have hpairing : ∀ k, w.closed.get k =
      ⟨starts.get (start k), ends.get (finCongr hclosed k), (w.closed.get k).level⟩ := by
    intro k
    have hstart : starts.get (start k) = (w.closed.get k).opening := by
      refine (hopening (finCongr hmap.symm k)).trans ?_
      simp
    have hend : ends.get (finCongr hclosed k) = (w.closed.get k).closing := by
      simp [← hclosings]
    rw [hstart, hend]
  refine ⟨start.symm.trans (finCongr hclosed), fun i => (w.closed.get (start.symm i)).level, ?_⟩
  have hplaces := ofFn_comp_equiv_perm start fun i => (⟨starts.get i,
    ends.get (finCongr hclosed (start.symm i)), (w.closed.get (start.symm i)).level⟩ : Pairing)
  simp only [Equiv.symm_apply_apply, ← hpairing] at hplaces
  rwa [List.ofFn_get] at hplaces

/-! ### Resolving any markers -/

/-- **The loop on as many start as end markers** fails at a stray end marker, or leaves nothing open
and nothing over, and its pairings match places. -/
theorem Walk.turns_cases {starts ends : List Marker} (hlength : starts.length = ends.length) :
    (∃ w, turns starts (initial ends) = .ok w ∧ w.opened = [] ∧ w.ends = [] ∧
      MatchPlaces starts ends w.closed) ∨
    ∃ e ∈ ends, turns starts (initial ends) = .error (.stray e) := by
  rcases (Tallies.initial hlength).turns hlength with ⟨w, hturns, hend⟩ | hstray
  · obtain ⟨hopened, hends⟩ := hend.at_end hlength
    exact .inl ⟨w, hturns, hopened, hends, hend.matchPlaces hlength⟩
  · exact .inr hstray

variable {ms : Markers} {defs : Definitions}

/-- Resolving after a loop that leaves nothing: the checks pass, so the regions are those of its
pairings. -/
theorem resolve_of_turns (hlength : ms.starts.length = ms.ends.length) {w : Walk}
    (hturns : Walk.turns ms.starts (Walk.initial ms.ends) = .ok w) (hopened : w.opened = [])
    (hends : w.ends = []) (family : Family) (defs : Definitions) (source : Source) :
    resolve family ms defs source = .ok {
      regions := Region.sort (w.closed.map (Pairing.toRegion defs))
      diagnostics := ms.starts.filterMap (Marker.conditionDiagnostic? source) } := by
  have hfinish : w.finish = .ok w.closed := by
    unfold Walk.finish
    rw [hopened, hends]
    rfl
  have hpair : pair [] ms.starts ms.ends = .ok w.closed := by
    rw [Walk.pair_eq, hturns]
    exact hfinish
  unfold resolve
  rw [if_neg (not_not_intro hlength), hpair]

/-- Resolving after a loop that fails at an end marker. -/
theorem resolve_of_turns_stray (hlength : ms.starts.length = ms.ends.length) {e : Marker}
    (hturns : Walk.turns ms.starts (Walk.initial ms.ends) = .error (.stray e))
    (family : Family) (defs : Definitions) (source : Source) :
    resolve family ms defs source =
      .error ⟨.strayEndMarker family source.name, "markers", source, e.span⟩ := by
  unfold resolve
  rw [if_neg (not_not_intro hlength), Walk.pair_eq, hturns]
  rfl

/-- The number of regions, in whatever order they are. -/
theorem Pairing.MatchPlaces.length_regions {starts ends : List Marker} {ps : List Pairing}
    {rs : List Region}
    (h : MatchPlaces starts ends ps) (hrs : rs.Perm (ps.map (Pairing.toRegion defs))) :
    rs.length = starts.length := by
  obtain ⟨place, level, hofFn⟩ := h
  rw [hrs.length_eq, List.length_map, hofFn.length_eq, List.length_ofFn]

/-- **Resolving any markers.** Whatever the two lists are, the error that their lengths differ is
given exactly if they do. If they do not differ, pairing is the loop with the checks behind it, and

* the loop never lacks an end marker, and when it is through, nothing is open and no end marker is
  left, so that the checks never find anything;
* the outcome is a stray end marker, which is one of those given, or there are as many regions as
  start markers, and they are those of the start markers with the end markers at the places that a
  bijection takes theirs to. -/
theorem resolve_any_markers (family : Family) (ms : Markers) (defs : Definitions)
    (source : Source) :
    ((∃ d f name starts ends, resolve family ms defs source = .error d ∧
        d.cause = .imbalancedMarkers f name starts ends) ↔ ms.starts.length ≠ ms.ends.length) ∧
    (ms.starts.length = ms.ends.length →
      pair [] ms.starts ms.ends =
        (Walk.turns ms.starts (Walk.initial ms.ends)).bind Walk.finish ∧
      (∀ s, Walk.turns ms.starts (Walk.initial ms.ends) ≠ .error (.unclosed s)) ∧
      (∀ w, Walk.turns ms.starts (Walk.initial ms.ends) = .ok w → w.opened = [] ∧ w.ends = []) ∧
      ((∃ e ∈ ms.ends, resolve family ms defs source =
          .error ⟨.strayEndMarker family source.name, "markers", source, e.span⟩) ∨
        ∃ res ps, resolve family ms defs source = .ok res ∧
          res.regions.length = ms.starts.length ∧
          res.regions.Perm (ps.map (Pairing.toRegion defs)) ∧
          MatchPlaces ms.starts ms.ends ps)) := by
  by_cases hlength : ms.starts.length = ms.ends.length
  swap
  · refine ⟨⟨fun _ => hlength, fun _ => ?_⟩, fun heq => absurd heq hlength⟩
    exact ⟨_, _, _, _, _, if_pos hlength, rfl⟩
  have hpair := Walk.pair_eq ms.starts ms.ends
  rcases Walk.turns_cases hlength with ⟨w, hturns, hopened, hends, hplaces⟩ | ⟨e, he, hturns⟩
  · have hresolve := resolve_of_turns hlength hturns hopened hends family defs source
    have hperm : (Region.sort (w.closed.map (Pairing.toRegion defs))).Perm _ :=
      List.mergeSort_perm _ Region.startsNoLater
    refine ⟨⟨?_, fun hne => absurd hlength hne⟩,
      fun _ => ⟨hpair, ?_, ?_, .inr ⟨_, w.closed, hresolve,
      hplaces.length_regions hperm, hperm, hplaces⟩⟩⟩
    · rintro ⟨d, f, name, starts, ends, herror, -⟩
      cases hresolve.symm.trans herror
    · intro s hunclosed
      cases hturns.symm.trans hunclosed
    · intro w' hw'
      obtain rfl := Except.ok.inj (hturns.symm.trans hw')
      exact ⟨hopened, hends⟩
  · have hresolve := resolve_of_turns_stray hlength hturns family defs source
    refine ⟨⟨?_, fun hne => absurd hlength hne⟩, fun _ => ⟨hpair, ?_, ?_, .inl ⟨e, he, hresolve⟩⟩⟩
    · -- a stray end marker is another error
      rintro ⟨d, f, name, starts, ends, herror, hcause⟩
      obtain rfl := Except.error.inj (hresolve.symm.trans herror)
      cases hcause
    · intro s hunclosed
      cases hturns.symm.trans hunclosed
    · intro w hok
      cases hturns.symm.trans hok

/-- Markers that are equal are paired place by place. -/
example :
    let s : Marker := ⟨.ifdef, ⟨0, 1⟩, none⟩
    let e : Marker := ⟨.endif, ⟨2, 3⟩, none⟩
    pair [] [s, s] [e, e] = .ok [⟨s, e, 1⟩, ⟨s, e, 0⟩] := by decide

end CondRegions
