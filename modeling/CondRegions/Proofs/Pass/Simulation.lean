import CondRegions.Proofs.Pass.Apply

/-!
# One style at a time

The scan of several styles at once is simulated by a pass of one of them, followed by the scan of
what the pass leaves. This is true of lines whose markers take up the whole line: then a pass keeps
or drops lines as they are.

When the scan of all styles has a list of regions open, the scan of one style has those of this
style open (`Scan.ofFamily`). The scan of the lines that the pass keeps has others open: those that
were opened on a line that the pass keeps, hence not those of the style, and not those inside a
region that the pass drops (`Scan.residue`). One line takes all three along
(`Scan.step?_simulates`), and so do all lines (`Scan.run?_simulates`). At the end nothing is open in
any of the three, so what the pass leaves has the same scan as the text, but no markers of the
style.
-/

namespace CondRegions

open MarkerLine

namespace Scan

variable {families : List Family} {defs : Definitions} {opened opened' : List OpenRegion}
  {F : Family} {b : Bracket} {line : List Char} {lines : List (List Char)}

/-! ### The regions of one style -/

/-- The open regions of one style. -/
def ofFamily (F : Family) (opened : List OpenRegion) : List OpenRegion :=
  opened.filter fun o => o.family = F

/-- Whether one of the open regions of the style drops what stands in it. -/
def hides (F : Family) (opened : List OpenRegion) : Bool :=
  !(ofFamily F opened).all (·.keeps)

/-- **The residue.** The open regions that are left by a pass of the style: not its own ones, and
none inside a region that it drops. -/
def residue (F : Family) : List OpenRegion → List OpenRegion
  | [] => []
  | o :: opened =>
    if o.family = F ∨ hides F opened = true then residue F opened else o :: residue F opened

theorem ofFamily_cons_own {o : OpenRegion} (h : o.family = F) :
    ofFamily F (o :: opened) = o :: ofFamily F opened :=
  List.filter_cons_of_pos (decide_eq_true h)

theorem ofFamily_cons_other {o : OpenRegion} (h : o.family ≠ F) :
    ofFamily F (o :: opened) = ofFamily F opened :=
  List.filter_cons_of_neg (by simpa using h)

theorem residue_cons_own {o : OpenRegion} (h : o.family = F) :
    residue F (o :: opened) = residue F opened := by
  rw [residue, if_pos (.inl h)]

theorem residue_cons_hidden {o : OpenRegion} (h : hides F opened = true) :
    residue F (o :: opened) = residue F opened := by
  rw [residue, if_pos (.inr h)]

theorem residue_cons_other {o : OpenRegion} (hf : o.family ≠ F) (h : hides F opened = false) :
    residue F (o :: opened) = o :: residue F opened := by
  rw [residue, if_neg (not_or.mpr ⟨hf, Bool.eq_false_iff.mp h⟩)]

/-- What the style drops is dropped by all open regions together. -/
theorem all_keeps_of_hides (h : hides F opened = true) : opened.all (·.keeps) = false := by
  rw [hides, Bool.not_eq_true', List.all_eq_false] at h
  obtain ⟨o, ho, hkeeps⟩ := h
  exact List.all_eq_false.mpr ⟨o, List.mem_of_mem_filter ho, hkeeps⟩

/-- Where the style drops nothing, the residue decides. -/
theorem all_keeps_residue (h : hides F opened = false) :
    (residue F opened).all (·.keeps) = opened.all (·.keeps) := by
  -- from the innermost region outwards, as the residue is defined
  induction opened with
  | nil => rfl
  | cons o opened ih =>
    by_cases hf : o.family = F
    · -- a region of the style is left out, but it keeps what stands in it
      rw [hides, ofFamily_cons_own hf, List.all_cons, Bool.not_eq_false', Bool.and_eq_true] at h
      have hrest : hides F opened = false := by rw [hides, h.2]; rfl
      rw [residue_cons_own hf, ih hrest, List.all_cons, h.1, Bool.true_and]
    · -- a region of another style stays in the residue
      rw [hides, ofFamily_cons_other hf] at h
      rw [residue_cons_other hf h, List.all_cons, List.all_cons, ih h]

/-! ### What a bracket does to them -/

/-- A bracket of the style is one for the scan of the style, and none for the residue. -/
theorem turn?_own (h : turn? defs opened b = some opened') (hb : b.family = F) :
    turn? defs (ofFamily F opened) b = some (ofFamily F opened') ∧
      residue F opened' = residue F opened := by
  -- the innermost region is the one of the style that is opened or closed
  cases b with
  | opening f m =>
    obtain rfl := Option.some.inj h
    rw [ofFamily_cons_own hb, residue_cons_own hb]
    exact ⟨rfl, rfl⟩
  | closing f m =>
    obtain ⟨k, rfl⟩ := turn?_closing_eq_some.mp h
    have hf : (OpenRegion.mk f k).family = F := hb
    rw [ofFamily_cons_own hf, residue_cons_own hf]
    exact ⟨turn?_closing_eq_some.mpr ⟨k, rfl⟩, rfl⟩

theorem ofFamily_turn? (h : turn? defs opened b = some opened') (hb : b.family ≠ F) :
    ofFamily F opened' = ofFamily F opened := by
  cases b with
  | opening f m =>
    obtain rfl := Option.some.inj h
    exact ofFamily_cons_other hb
  | closing f m =>
    obtain ⟨k, rfl⟩ := turn?_closing_eq_some.mp h
    exact (ofFamily_cons_other hb).symm

/-- A bracket of another style inside a region that is dropped does not matter to the residue. -/
theorem residue_turn?_of_hides (h : turn? defs opened b = some opened') (hb : b.family ≠ F)
    (hhides : hides F opened = true) : residue F opened' = residue F opened := by
  cases b with
  | opening f m =>
    obtain rfl := Option.some.inj h
    exact residue_cons_hidden hhides
  | closing f m =>
    -- the region that is closed lies inside one that is dropped, since its own style is another
    have hhides' : hides F opened' = true := by rw [hides, ofFamily_turn? h hb, ← hides, hhides]
    obtain ⟨k, rfl⟩ := turn?_closing_eq_some.mp h
    exact (residue_cons_hidden hhides').symm

/-- Elsewhere it is a bracket for the residue too. -/
theorem turn?_residue (h : turn? defs opened b = some opened') (hb : b.family ≠ F)
    (hhides : hides F opened = false) :
    turn? defs (residue F opened) b = some (residue F opened') := by
  -- the region of the bracket is in the residue, on top of it
  cases b with
  | opening f m =>
    obtain rfl := Option.some.inj h
    rw [residue_cons_other hb hhides]
    rfl
  | closing f m =>
    have hhides' : hides F opened' = false := by rw [hides, ofFamily_turn? h hb, ← hides, hhides]
    obtain ⟨k, rfl⟩ := turn?_closing_eq_some.mp h
    have hf : (OpenRegion.mk f k).family ≠ F := hb
    rw [residue_cons_other hf hhides']
    exact turn?_closing_eq_some.mpr ⟨k, rfl⟩

/-! ### The simulation -/

/-- The markers of the given styles take up their whole lines. -/
def WholeLines (families : List Family) (lines : List (List Char)) : Prop :=
  ∀ line ∈ lines, ∀ b, bracket? families line = some b → b.span.stop = Text.byteLength line

/-- No line begins with a marker of the style. -/
def Clear (families : List Family) (F : Family) (lines : List (List Char)) : Prop :=
  ∀ line ∈ lines, ∀ b, bracket? families line = some b → b.family ≠ F

theorem step?_whole (hb : bracket? families line = some b)
    (hwhole : b.span.stop = Text.byteLength line) :
    step? families defs opened line = (turn? defs opened b).map fun opened => ⟨opened, []⟩ := by
  have hdrop : Text.dropBytes b.span.stop line = [] := by
    rw [hwhole]
    simpa using Text.dropBytes_byteLength_append line []
  rw [step?_bracket hb, hdrop]
  simp only [emit_empty]

/-- **The simulation.** All styles together take the open regions along some lines and let a text
through. A pass of one style does the same to its own regions and keeps some of the lines, and the
lines that are kept take the residue along and let the same text through. -/
structure Simulates (families : List Family) (defs : Definitions) (F : Family)
    (opened opened' : List OpenRegion) (lines kept : List (List Char)) (output : List Char) :
    Prop where
  sublist : kept.Sublist lines
  clear : Clear families F kept
  pass : run? [F] defs (ofFamily F opened) lines = some ⟨ofFamily F opened', kept.flatten⟩
  rest : run? families defs (residue F opened) kept = some ⟨residue F opened', output⟩

theorem Simulates.append {opened'' : List OpenRegion} {lines' kept kept' : List (List Char)}
    {x y : List Char} (h : Simulates families defs F opened opened' lines kept x)
    (h' : Simulates families defs F opened' opened'' lines' kept' y) :
    Simulates families defs F opened opened'' (lines ++ lines') (kept ++ kept') (x ++ y) where
  sublist := h.sublist.append h'.sublist
  clear := fun l hl => (List.mem_append.mp hl).elim (h.clear l) (h'.clear l)
  pass := by
    rw [run?_append, h.pass, Option.bind_some, h'.pass, Option.map_some, List.flatten_append]
  rest := by rw [run?_append, h.rest, Option.bind_some, h'.rest, Option.map_some]

/-- What a pass does with a line that is no marker of its style. -/
theorem step?_pass (h : bracket? [F] line = none) :
    step? [F] defs (ofFamily F opened) line =
      some ⟨ofFamily F opened, if hides F opened then [] else line⟩ := by
  rw [step?_plain h, emit, hides]
  cases (ofFamily F opened).all (·.keeps) <;> rfl

/-- A line without a marker is kept where the style drops nothing. -/
theorem simulates_plain (hF : F ∈ families) (hb : bracket? families line = none) :
    ∃ kept, Simulates families defs F opened opened [line] kept (emit opened line) := by
  have hpass : bracket? [F] line = none := by rw [bracket?_singleton hF, hb, Option.filter_none]
  cases hhides : hides F opened with
  | true =>
    -- a region of the style drops the line, so all styles together do
    refine ⟨[], List.nil_sublist _, nofun, ?_, ?_⟩
    · rw [run?_singleton, step?_pass hpass, hhides]
      rfl
    · rw [run?_nil, emit_of_not_all (all_keeps_of_hides hhides)]
  | false =>
    -- the line is kept, and the residue decides about it
    refine ⟨[line], List.Sublist.refl _, ?_, ?_, ?_⟩
    · intro l hl c hc
      rw [List.mem_singleton.mp hl, hb] at hc
      exact absurd hc nofun
    · rw [run?_singleton, step?_pass hpass, hhides, List.flatten_singleton]
      rfl
    · rw [run?_singleton, step?_plain hb, emit, emit, all_keeps_residue hhides]

/-- A marker of the style is not kept. -/
theorem simulates_own (hF : F ∈ families) (hb : bracket? families line = some b)
    (hwhole : b.span.stop = Text.byteLength line) (hturn : turn? defs opened b = some opened')
    (hfam : b.family = F) : Simulates families defs F opened opened' [line] [] [] := by
  have hpass : bracket? [F] line = some b := by
    rw [bracket?_singleton hF, hb]
    exact Option.filter_some_pos (decide_eq_true hfam)
  -- the pass takes the marker, and nothing of it is left for the other styles
  obtain ⟨hown, hresidue⟩ := turn?_own hturn hfam
  refine ⟨List.nil_sublist _, nofun, ?_, ?_⟩
  · rw [run?_singleton, step?_whole hpass hwhole, hown]
    rfl
  · rw [run?_nil, hresidue]

/-- A marker of another style is kept where the style drops nothing. -/
theorem simulates_other (hF : F ∈ families) (hb : bracket? families line = some b)
    (hwhole : b.span.stop = Text.byteLength line) (hturn : turn? defs opened b = some opened')
    (hfam : b.family ≠ F) : ∃ kept, Simulates families defs F opened opened' [line] kept [] := by
  have hpass : bracket? [F] line = none := by
    rw [bracket?_singleton hF, hb]
    exact Option.filter_some_neg (by simpa using hfam)
  have hown := ofFamily_turn? hturn hfam
  cases hhides : hides F opened with
  | true =>
    -- the marker is dropped as text of a region of the style
    refine ⟨[], List.nil_sublist _, nofun, ?_, ?_⟩
    · rw [run?_singleton, step?_pass hpass, hhides, hown]
      rfl
    · rw [run?_nil, residue_turn?_of_hides hturn hfam hhides]
  | false =>
    -- the pass keeps the marker as text, so the other styles meet it in the residue
    refine ⟨[line], List.Sublist.refl _, ?_, ?_, ?_⟩
    · intro l hl c hc
      rw [List.mem_singleton.mp hl, hb] at hc
      rwa [← Option.some.inj hc]
    · rw [run?_singleton, step?_pass hpass, hhides, hown, List.flatten_singleton]
      rfl
    · rw [run?_singleton, step?_whole hb hwhole, turn?_residue hturn hfam hhides]
      rfl

/-- **One line** is simulated. -/
theorem step?_simulates {s : Scan} (hF : F ∈ families) (hwhole : WholeLines families [line])
    (h : step? families defs opened line = some s) :
    ∃ kept, Simulates families defs F opened s.opened [line] kept s.output := by
  -- a line without a marker, a marker of the style, or a marker of another style
  rcases step?_cases h with ⟨hb, rfl⟩ | ⟨b, hb, hturn, -⟩
  · exact simulates_plain hF hb
  · have hstop := hwhole line (List.mem_singleton_self line) b hb
    have hout : s.output = [] := by
      rw [step?_whole hb hstop, hturn] at h
      exact (congrArg Scan.output (Option.some.inj h)).symm
    rw [hout]
    by_cases hfam : b.family = F
    · exact ⟨[], simulates_own hF hb hstop hturn hfam⟩
    · exact simulates_other hF hb hstop hturn hfam

/-- **All lines** are simulated. -/
theorem run?_simulates {t : Scan} (hF : F ∈ families) (hwhole : WholeLines families lines)
    (h : run? families defs opened lines = some t) :
    ∃ kept, Simulates families defs F opened t.opened lines kept t.output := by
  -- along the lines, putting the simulations of single lines together
  induction lines generalizing opened t with
  | nil =>
    obtain rfl := Option.some.inj h
    exact ⟨[], List.Sublist.refl _, nofun, rfl, rfl⟩
  | cons line lines ih =>
    obtain ⟨s, u, hs, hu, rfl⟩ := run?_cons_eq_some.mp h
    have hline : WholeLines families [line] := fun l hl =>
      hwhole l (List.mem_cons.mpr (.inl (List.mem_singleton.mp hl)))
    obtain ⟨kept, hkept⟩ := step?_simulates hF hline hs
    obtain ⟨kept', hkept'⟩ := ih (fun l hl => hwhole l (List.mem_cons_of_mem _ hl)) hu
    exact ⟨kept ++ kept', hkept.append hkept'⟩

end Scan

end CondRegions
