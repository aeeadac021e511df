import CondRegions.Proofs.Region.Rewriting

/-!
# Scanning a text

A pass finds all markers, pairs them, sorts the regions and copies slices. The same text is obtained
by reading the lines once, with a stack of the regions that are open: a start marker opens a region,
an end marker closes the innermost one, and everything else is let through if all open regions keep
it. This is the *scan*. It works for one style and for several at a time.

* `Scan.run?` — the scan of a list of lines, `none` if an end marker has no region of its style to
  close;
* `Scan.run?_append` — lines are scanned part by part;
* `Scan.run?_frame` — regions that are open around a part do not change how the part is scanned,
  they only decide whether its text is let through;
* `Scan.run?_lines_eq_some_iff` — the scan of a text ends with nothing open exactly if the word of
  the text can be matched, and then it lets through the bytes that the regions of the word keep.

The scan is local where the pass is not, so what happens to a text when parts of it are left out is
proved here and carried over.
-/

namespace CondRegions

open MarkerLine

/-- A region that is open: its style, and whether its condition keeps it. -/
structure OpenRegion where
  family : Family
  keeps : Bool
deriving DecidableEq, Repr

/-- The regions that are open, the innermost first, and the text that has been let through. -/
structure Scan where
  opened : List OpenRegion
  output : List Char
deriving DecidableEq, Repr

namespace Scan

/-! ### The scan -/

/-- A text, if all open regions keep it. -/
def emit (opened : List OpenRegion) (cs : List Char) : List Char :=
  if opened.all (·.keeps) then cs else []

/-- The regions that are open behind a bracket. A closing bracket closes the innermost region, which
must be of its own style. -/
def turn? (defs : Definitions) (opened : List OpenRegion) : Bracket → Option (List OpenRegion)
  | .opening f m => some (⟨f, m.keeps defs⟩ :: opened)
  | .closing f _ =>
    match opened with
    | [] => none
    | o :: rest => if o.family = f then some rest else none

/-- **One line.** A line that begins with a marker opens or closes a region, and only what follows
the marker is text. -/
def step? (families : List Family) (defs : Definitions) (opened : List OpenRegion)
    (line : List Char) : Option Scan :=
  match bracket? families line with
  | none => some ⟨opened, emit opened line⟩
  | some b =>
    (turn? defs opened b).map fun opened => ⟨opened, emit opened (Text.dropBytes b.span.stop line)⟩

/-- **The scan.** All lines, one after the other. -/
def run? (families : List Family) (defs : Definitions) :
    List OpenRegion → List (List Char) → Option Scan
  | opened, [] => some ⟨opened, []⟩
  | opened, line :: lines =>
    (step? families defs opened line).bind fun s =>
      (run? families defs s.opened lines).map fun t => ⟨t.opened, s.output ++ t.output⟩

variable {families : List Family} {defs : Definitions} {opened opened' base : List OpenRegion}
  {line : List Char} {lines : List (List Char)}

@[simp] theorem emit_empty (opened : List OpenRegion) : emit opened [] = [] := by
  rw [emit, ite_self]

theorem emit_append (opened : List OpenRegion) (xs ys : List Char) :
    emit opened (xs ++ ys) = emit opened xs ++ emit opened ys := by
  simp only [emit]
  split <;> rfl

theorem emit_of_all (h : opened.all (·.keeps) = true) (cs : List Char) : emit opened cs = cs :=
  if_pos h

theorem emit_of_not_all (h : opened.all (·.keeps) = false) (cs : List Char) : emit opened cs = [] :=
  if_neg (Bool.eq_false_iff.mp h)

/-- A text has to pass all open regions, those inside and those around. -/
theorem emit_opened_append (opened base : List OpenRegion) (cs : List Char) :
    emit (opened ++ base) cs = emit base (emit opened cs) := by
  -- the inner regions let the text through or drop it; then the outer ones are asked
  cases h : opened.all (·.keeps) with
  | true => rw [emit_of_all h, emit, emit, List.all_append, h, Bool.true_and]
  | false => rw [emit_of_not_all h, emit_empty, emit, List.all_append, h, Bool.false_and,
      if_neg Bool.false_ne_true]

/-! ### What a line can do -/

theorem step?_plain (h : bracket? families line = none) :
    step? families defs opened line = some ⟨opened, emit opened line⟩ := by
  rw [step?, h]

theorem step?_bracket {b : Bracket} (h : bracket? families line = some b) :
    step? families defs opened line = (turn? defs opened b).map fun opened =>
      ⟨opened, emit opened (Text.dropBytes b.span.stop line)⟩ := by
  rw [step?, h]

/-- **What a line can do**: nothing to the open regions, or what its bracket does. -/
theorem step?_cases {s : Scan} (h : step? families defs opened line = some s) :
    (bracket? families line = none ∧ s = ⟨opened, emit opened line⟩) ∨
      ∃ b, bracket? families line = some b ∧ turn? defs opened b = some s.opened ∧
        s.output = emit s.opened (Text.dropBytes b.span.stop line) := by
  cases hb : bracket? families line with
  | none =>
    rw [step?_plain hb] at h
    exact .inl ⟨rfl, (Option.some.inj h).symm⟩
  | some b =>
    rw [step?_bracket hb] at h
    obtain ⟨opened', hturn, rfl⟩ := Option.map_eq_some_iff.mp h
    exact .inr ⟨b, rfl, hturn, rfl⟩

theorem turn?_closing_eq_some {f : Family} {m : Marker} :
    turn? defs opened (.closing f m) = some opened' ↔ ∃ k, opened = ⟨f, k⟩ :: opened' := by
  -- there is a region to close, and it is of the style of the bracket
  cases opened with
  | nil => simp [turn?]
  | cons o rest =>
    obtain ⟨g, k⟩ := o
    simp only [turn?, Option.ite_none_right_eq_some, Option.some.injEq, List.cons.injEq,
      OpenRegion.mk.injEq]
    constructor
    · rintro ⟨rfl, rfl⟩
      exact ⟨k, ⟨rfl, rfl⟩, rfl⟩
    · rintro ⟨_, ⟨rfl, rfl⟩, rfl⟩
      exact ⟨rfl, rfl⟩

/-- Where a marker stands does not matter to the regions that are open behind it. -/
@[simp] theorem turn?_shift (b : Bracket) (offset : Nat) :
    turn? defs opened (b.shift offset) = turn? defs opened b := by
  cases b with
  | opening f m => simp only [Bracket.shift, turn?, Marker.keeps_shift]
  | closing f m => rfl

theorem turn?_frame {b : Bracket} (h : turn? defs opened b = some opened')
    (base : List OpenRegion) : turn? defs (opened ++ base) b = some (opened' ++ base) := by
  -- a bracket works at the top of the stack and does not see what is below
  cases b with
  | opening f m =>
    obtain rfl := Option.some.inj h
    rfl
  | closing f m =>
    obtain ⟨k, rfl⟩ := turn?_closing_eq_some.mp h
    exact turn?_closing_eq_some.mpr ⟨k, rfl⟩

theorem step?_frame {s : Scan} (h : step? families defs opened line = some s)
    (base : List OpenRegion) :
    step? families defs (opened ++ base) line = some ⟨s.opened ++ base, emit base s.output⟩ := by
  rcases step?_cases h with ⟨hb, rfl⟩ | ⟨b, hb, hturn, hout⟩
  · rw [step?_plain hb, emit_opened_append]
  · rw [step?_bracket hb, turn?_frame hturn, Option.map_some, emit_opened_append, hout]

/-! ### Runs -/

@[simp] theorem run?_nil : run? families defs opened [] = some ⟨opened, []⟩ := rfl

theorem run?_cons_eq_some {t : Scan} :
    run? families defs opened (line :: lines) = some t ↔
      ∃ s u, step? families defs opened line = some s ∧ run? families defs s.opened lines = some u ∧
        t = ⟨u.opened, s.output ++ u.output⟩ := by
  rw [run?, Option.bind_eq_some_iff]
  constructor
  · rintro ⟨s, hs, h⟩
    obtain ⟨u, hu, rfl⟩ := Option.map_eq_some_iff.mp h
    exact ⟨s, u, hs, hu, rfl⟩
  · rintro ⟨s, u, hs, hu, rfl⟩
    exact ⟨s, hs, Option.map_eq_some_iff.mpr ⟨u, hu, rfl⟩⟩

@[simp] theorem run?_singleton :
    run? families defs opened [line] = step? families defs opened line := by
  rw [run?]
  cases step? families defs opened line with
  | none => rfl
  | some s => rw [Option.bind_some, run?_nil, Option.map_some, List.append_nil]

/-- **Part by part.** What follows is scanned with the regions that are open behind what comes
first. -/
theorem run?_append (first second : List (List Char)) :
    run? families defs opened (first ++ second) =
      (run? families defs opened first).bind fun s =>
        (run? families defs s.opened second).map fun t => ⟨t.opened, s.output ++ t.output⟩ := by
  -- along the first part, with the regions that are open at each line
  induction first generalizing opened with
  | nil =>
    rw [List.nil_append, run?_nil, Option.bind_some]
    exact Option.map_id'.symm
  | cons line lines ih =>
    -- where the first line fails both sides fail, and otherwise the outputs are put together twice
    rw [List.cons_append, run?, run?]
    cases step? families defs opened line with
    | none => rfl
    | some s =>
      rw [Option.bind_some, Option.bind_some, ih]
      cases run? families defs s.opened lines with
      | none => rfl
      | some t =>
        rw [Option.bind_some, Option.map_some, Option.bind_some, Option.map_map]
        simp only [Function.comp_def, List.append_assoc]

/-- Lines without markers are let through as they are. -/
theorem run?_of_plain (defs : Definitions)
    (h : ∀ line ∈ lines, bracket? families line = none) :
    run? families defs [] lines = some ⟨[], lines.flatten⟩ := by
  induction lines with
  | nil => rfl
  | cons line lines ih =>
    obtain ⟨hline, hlines⟩ := List.forall_mem_cons.mp h
    exact run?_cons_eq_some.mpr ⟨_, _, step?_plain hline, ih hlines, rfl⟩

/-- **Frame.** Further regions around a part stay open throughout and let all of its text through,
or nothing. -/
theorem run?_frame {t : Scan} (h : run? families defs opened lines = some t)
    (base : List OpenRegion) :
    run? families defs (opened ++ base) lines = some ⟨t.opened ++ base, emit base t.output⟩ := by
  -- line by line, the frame stays below what is open
  induction lines generalizing opened t with
  | nil =>
    obtain rfl := Option.some.inj h
    rw [run?_nil, emit_empty]
  | cons line lines ih =>
    obtain ⟨s, u, hs, hu, rfl⟩ := run?_cons_eq_some.mp h
    exact run?_cons_eq_some.mpr ⟨_, _, step?_frame hs base, ih hu, by rw [emit_append]⟩

/-! ### The scan and the matcher -/

open Word Text

variable {stack stack' : List (Family × Marker)} {w : List Bracket} {ps : List Pairing}
variable {offset : Nat}

/-- The open regions of start markers that are on the stack of the matcher. -/
def ofStack (defs : Definitions) (stack : List (Family × Marker)) : List OpenRegion :=
  stack.map fun o => ⟨o.1, o.2.keeps defs⟩

theorem all_keeps_ofStack :
    (ofStack defs stack).all (·.keeps) = true ↔ ∀ m ∈ stack.map Prod.snd, m.keeps defs = true := by
  rw [ofStack, List.all_map, List.all_eq_true, List.forall_mem_map]
  rfl

/-- **Between the brackets.** A byte behind the brackets on the stack and before those of the word
is kept exactly if all that is open keeps it. -/
theorem keepsByte_between (hw : Ordered (stackWord stack ++ w)) (h : pairings stack w = .ok ps)
    {p : Nat} (hstack : ∀ m ∈ stack.map Prod.snd, m.span.stop ≤ p)
    (hword : ∀ b ∈ w, p < b.span.start) :
    Region.keepsByte (ps.map (Pairing.toRegion defs)) p = (ofStack defs stack).all (·.keeps) := by
  -- a pairing whose start marker is on the stack has the byte between its markers
  have hinner : ∀ q ∈ ps, q.opening ∈ stack.map Prod.snd →
      q.span.covers p = true ∧ q.inner.covers p = true := by
    intro q hq hmem
    obtain ⟨g, hg⟩ := mem_closings.mp (closing_mem_of_pairings h hq)
    have hwf := wellFormed_of_pairings hw h q hq
    have h1 : q.inner.start ≤ p := hstack _ hmem
    have h2 : p < q.inner.stop := hword _ hg
    have h3 := hwf.opening_lt
    have h4 := hwf.closing_lt
    exact ⟨Span.covers_eq_true.mpr ⟨by omega, by omega⟩, Span.covers_eq_true.mpr ⟨h1, h2⟩⟩
  rw [Bool.eq_iff_iff, Region.keepsByte_eq_true, all_keeps_ofStack]
  constructor
  · -- every start marker on the stack is that of a pairing around the byte
    intro hkeep m hm
    have hopening : m ∈ ps.map (·.opening) :=
      (openings_perm_of_pairings h).mem_iff.mpr (List.mem_append_left _ hm)
    obtain ⟨q, hq, rfl⟩ := List.mem_map.mp hopening
    exact (hkeep _ (List.mem_map_of_mem hq) (hinner q hq hm).1).1
  · -- a region with the byte in it starts on the stack, since the word starts behind the byte
    intro hall r hr hcovers
    obtain ⟨q, hq, rfl⟩ := List.mem_map.mp hr
    rcases opening_mem_of_pairings h hq with hmem | hmem
    · exact ⟨hall _ hmem, (hinner q hq hmem).2⟩
    · obtain ⟨f, hf⟩ := mem_openings.mp hmem
      have h1 : p < q.span.start := hword _ hf
      have h2 : q.span.start ≤ p := (Span.covers_eq_true.mp hcovers).1
      exact absurd h1 (Nat.not_lt_of_le h2)

/-- The bytes of brackets are not kept. -/
theorem keepsByte_bracket (hw : Ordered (stackWord stack ++ w)) (h : pairings stack w = .ok ps)
    {b : Bracket} (hb : b ∈ w) {p : Nat} (hp : b.span.covers p = true) :
    Region.keepsByte (ps.map (Pairing.toRegion defs)) p = false := by
  obtain ⟨h1, h2⟩ := Span.covers_eq_true.mp hp
  -- the pairing of the bracket has the byte in one of its markers
  obtain ⟨q, hq, hcovers, hinner⟩ : ∃ q ∈ ps, q.span.covers p = true ∧
      q.inner.covers p = false := by
    cases b with
    | opening f m =>
      have hmem : m ∈ ps.map (·.opening) := (openings_perm_of_pairings h).mem_iff.mpr
        (List.mem_append_right _ (mem_openings.mpr ⟨f, hb⟩))
      obtain ⟨q, hq, rfl⟩ := List.mem_map.mp hmem
      have hwf := wellFormed_of_pairings hw h q hq
      have h3 := hwf.inner_le
      have h4 := hwf.closing_lt
      change q.span.start ≤ p at h1
      change p < q.inner.start at h2
      exact ⟨q, hq, Span.covers_eq_true.mpr ⟨h1, by omega⟩, Span.covers_eq_false.mpr (by omega)⟩
    | closing f m =>
      have hmem : m ∈ ps.map (·.closing) := by
        rw [closings_eq_of_pairings h]
        exact mem_closings.mpr ⟨f, hb⟩
      obtain ⟨q, hq, rfl⟩ := List.mem_map.mp hmem
      have hwf := wellFormed_of_pairings hw h q hq
      have h3 := hwf.opening_lt
      have h4 := hwf.inner_le
      change q.inner.stop ≤ p at h1
      change p < q.span.stop at h2
      exact ⟨q, hq, Span.covers_eq_true.mpr ⟨by omega, h2⟩, Span.covers_eq_false.mpr (by omega)⟩
  have hmem : q.toRegion defs ∈ ps.map (Pairing.toRegion defs) := List.mem_map_of_mem hq
  rw [Region.keepsByte_perm (List.perm_cons_erase hmem)]
  exact Region.keepsByte_cons_of_marker hcovers hinner

/-- **One bracket.** Where the matcher goes on behind a bracket, the scan does too, and what the
matcher pairs there decides about the bytes behind the bracket. -/
theorem turn?_of_pairings (defs : Definitions) {b : Bracket}
    (hw : Ordered (stackWord stack ++ b :: w))
    (hstack : ∀ m ∈ stack.map Prod.snd, m.span.stop ≤ b.span.start)
    (h : pairings stack (b :: w) = .ok ps) :
    ∃ stack' ps', turn? defs (ofStack defs stack) b = some (ofStack defs stack') ∧
      pairings stack' w = .ok ps' ∧ Ordered (stackWord stack' ++ w) ∧
      (∀ m ∈ stack'.map Prod.snd, m.span.stop ≤ b.span.stop) ∧
      ∀ p, b.span.stop ≤ p →
        Region.keepsByte (ps.map (Pairing.toRegion defs)) p =
          Region.keepsByte (ps'.map (Pairing.toRegion defs)) p := by
  have hb : b.span.start < b.span.stop :=
    hw.nonempty b (List.mem_append_right _ List.mem_cons_self)
  cases b with
  | opening f m =>
    -- the bracket moves from the word to the stack, and no pairing is made
    rw [pairings_opening] at h
    rw [← stackWord_cons_append] at hw
    refine ⟨(f, m) :: stack, ps, rfl, h, hw, ?_, fun _ _ => rfl⟩
    rw [List.map_cons, List.forall_mem_cons]
    exact ⟨Nat.le_refl _, fun n hn => Nat.le_trans (hstack n hn) (Nat.le_of_lt hb)⟩
  | closing f m =>
    -- the bracket closes the top of the stack, and one pairing is made
    obtain ⟨o, rest, ps', rfl, h', rfl⟩ := pairings_closing_ok h
    refine ⟨rest, ps', turn?_closing_eq_some.mpr ⟨o.keeps defs, rfl⟩, h', ordered_after_closing hw,
      ?_, ?_⟩
    · intro n hn
      exact Nat.le_trans (hstack n (List.mem_cons_of_mem _ hn)) (Nat.le_of_lt hb)
    · -- the pairing made here ends with the bracket
      intro p hp
      have hp' : ¬ p < m.span.stop := Nat.not_lt_of_le hp
      rw [List.map_cons, Region.keepsByte_cons_of_not_covers]
      exact Span.covers_eq_false.mpr fun hcovers => hp' hcovers.2

/-- What is let through of a stretch of text, all bytes of which share one fate. -/
theorem bytes_emit {keep : Nat → Bool} {cs : List Char}
    (h : ∀ p, offset ≤ p → p < offset + byteLength cs → keep p = opened.all (·.keeps)) :
    bytes (emit opened cs) = selectFrom keep offset (bytes cs) := by
  rw [← length_bytes] at h
  cases hall : opened.all (·.keeps) with
  | true =>
    rw [hall] at h
    rw [emit_of_all hall, selectFrom_eq_self h]
  | false =>
    rw [hall] at h
    rw [emit_of_not_all hall, selectFrom_eq_nil h, bytes_nil]

/-- **The scan of a word that can be matched.** It ends with nothing open and lets through the bytes
that the regions of the word keep. -/
theorem run?_of_pairings (defs : Definitions)
    (hw : Ordered (stackWord stack ++ ofLines families offset lines))
    (hstack : ∀ m ∈ stack.map Prod.snd, m.span.stop ≤ offset)
    (h : pairings stack (ofLines families offset lines) = .ok ps) :
    ∃ x, run? families defs (ofStack defs stack) lines = some ⟨[], x⟩ ∧
      bytes x =
        selectFrom (Region.keepsByte (ps.map (Pairing.toRegion defs))) offset
          (bytes lines.flatten) := by
  -- along the lines, with the stack of the matcher; it stands before the current line
  induction lines generalizing stack offset ps with
  | nil =>
    obtain ⟨rfl, rfl⟩ := pairings_nil_ok h
    exact ⟨[], rfl, rfl⟩
  | cons line lines ih =>
    rw [List.flatten_cons, bytes_append, selectFrom_append, length_bytes]
    cases hb : bracket? families line with
    | none =>
      -- all bytes of the line lie between the same brackets
      rw [ofLines_cons_none hb] at h hw
      have hstack' : ∀ m ∈ stack.map Prod.snd, m.span.stop ≤ offset + byteLength line :=
        fun m hm => Nat.le_trans (hstack m hm) (Nat.le_add_right _ _)
      obtain ⟨x, hx, hbytes⟩ := ih hw hstack' h
      refine ⟨emit (ofStack defs stack) line ++ x,
        run?_cons_eq_some.mpr ⟨_, _, step?_plain hb, hx, rfl⟩, ?_⟩
      rw [bytes_append, hbytes]
      congr 1
      refine bytes_emit fun p hp hlt => keepsByte_between hw h ?_ ?_
      · exact fun m hm => Nat.le_trans (hstack m hm) hp
      · exact fun b hb => Nat.lt_of_lt_of_le hlt (le_start_of_mem_ofLines hb)
    | some b =>
      -- the bracket is at the start of the line
      obtain ⟨marker, after, rfl, -, hspan⟩ := heads_of_bracket? hb
      have hstart : (b.shift offset).span.start = offset := by
        have : b.span.start = 0 := congrArg Span.start hspan
        rw [Bracket.span_shift, Span.shift_start, this, Nat.zero_add]
      have hstop : (b.shift offset).span.stop = offset + byteLength marker := by
        have : b.span.stop = byteLength marker := congrArg Span.stop hspan
        rw [Bracket.span_shift, Span.shift_stop, this, Nat.add_comm]
      rw [ofLines_cons_some hb] at h hw
      obtain ⟨stack', ps', hturn, h', hw', hstack', hkeep⟩ :=
        turn?_of_pairings defs hw (by rwa [hstart]) h
      rw [hstop] at hstack' hkeep
      have hlen : offset + byteLength (marker ++ after) =
          offset + byteLength marker + byteLength after := by
        rw [byteLength_append, Nat.add_assoc]
      obtain ⟨x, hx, hbytes⟩ := ih hw' (fun m hm => by have := hstack' m hm; omega) h'
      have hstep : step? families defs (ofStack defs stack) (marker ++ after) =
          some ⟨ofStack defs stack', emit (ofStack defs stack') after⟩ := by
        have hdrop : dropBytes b.span.stop (marker ++ after) = after := by
          rw [show b.span.stop = byteLength marker from congrArg Span.stop hspan,
            dropBytes_byteLength_append]
        rw [step?_bracket hb, ← turn?_shift b offset, hturn, Option.map_some, hdrop]
      -- the bytes of the marker, those that follow it on the line, and those of the other lines
      have hmarker : selectFrom (Region.keepsByte (ps.map (Pairing.toRegion defs))) offset
          (bytes marker) = [] := by
        refine selectFrom_eq_nil fun p hp hlt => ?_
        rw [length_bytes] at hlt
        exact keepsByte_bracket hw h List.mem_cons_self
          (Span.covers_eq_true.mpr ⟨by rwa [hstart], by rwa [hstop]⟩)
      have hafter : bytes (emit (ofStack defs stack') after) =
          selectFrom (Region.keepsByte (ps.map (Pairing.toRegion defs)))
            (offset + byteLength marker) (bytes after) := by
        refine bytes_emit fun p hp hlt => (hkeep p hp).trans (keepsByte_between hw' h' ?_ ?_)
        · exact fun m hm => Nat.le_trans (hstack' m hm) hp
        · exact fun c hc => Nat.lt_of_lt_of_le (by omega) (le_start_of_mem_ofLines hc)
      have hrest : selectFrom (Region.keepsByte (ps.map (Pairing.toRegion defs)))
          (offset + byteLength (marker ++ after)) (bytes lines.flatten) = bytes x := by
        rw [hbytes]
        exact selectFrom_congr fun p hp _ => hkeep p (by omega)
      refine ⟨emit (ofStack defs stack') after ++ x,
        run?_cons_eq_some.mpr ⟨_, _, hstep, hx, rfl⟩, ?_⟩
      rw [bytes_append, bytes_append, selectFrom_append, length_bytes, hmarker, hrest, hafter,
        List.nil_append]

/-- **The converse.** If the scan ends with nothing open, the word can be matched. -/
theorem pairings_of_run? {x : List Char}
    (h : run? families defs (ofStack defs stack) lines = some ⟨[], x⟩) (offset : Nat) :
    ∃ ps, pairings stack (ofLines families offset lines) = .ok ps := by
  -- along the lines again; the stack is recovered from the regions that are open
  induction lines generalizing stack offset x with
  | nil =>
    have hstack : ofStack defs stack = [] := congrArg Scan.opened (Option.some.inj h)
    obtain rfl : stack = [] := List.map_eq_nil_iff.mp hstack
    exact ⟨[], rfl⟩
  | cons line lines ih =>
    obtain ⟨s, u, hs, hu, hx⟩ := run?_cons_eq_some.mp h
    obtain ⟨opened, output⟩ := u
    obtain rfl : opened = [] := (congrArg Scan.opened hx).symm
    rcases step?_cases hs with ⟨hb, rfl⟩ | ⟨b, hb, hturn, -⟩
    · rw [ofLines_cons_none hb]
      exact ih hu _
    · rw [ofLines_cons_some hb]
      cases b with
      | opening f m =>
        -- the stack is extended by the marker at its place in the text
        have hopened : ofStack defs ((f, m.shift offset) :: stack) = s.opened := by
          rw [← Option.some.inj hturn, ofStack, List.map_cons, Marker.keeps_shift]
          rfl
        rw [← hopened] at hu
        rw [Bracket.shift, pairings_opening]
        exact ih hu _
      | closing f m =>
        -- the region that is closed is the top of the stack, of the same style
        obtain ⟨k, hopened⟩ := turn?_closing_eq_some.mp hturn
        obtain ⟨o, rest, rfl, ho, hrest⟩ := List.map_eq_cons_iff.mp hopened
        obtain rfl : o.1 = f := congrArg OpenRegion.family ho
        change ofStack defs rest = s.opened at hrest
        rw [← hrest] at hu
        obtain ⟨ps, hps⟩ := ih hu (offset + byteLength line)
        refine ⟨⟨o.2, m.shift offset, rest.length⟩ :: ps, ?_⟩
        rw [Bracket.shift, pairings_closing_cons, if_pos rfl, hps]
        rfl

theorem exists_run?_of_pairings (defs : Definitions) {text : List Char}
    (h : pairings [] (ofText families text) = .ok ps) :
    ∃ x, run? families defs [] (Text.lines text) = some ⟨[], x⟩ ∧
      bytes x = select (Region.keepsByte (ps.map (Pairing.toRegion defs))) text := by
  have hw : Ordered (stackWord [] ++ ofLines families 0 (Text.lines text)) :=
    ordered_ofText families text
  have hrun := run?_of_pairings defs hw nofun h
  rwa [flatten_lines] at hrun

/-- **The scan of a text.** It ends with nothing open exactly if the word of the text can be
matched, and then it lets through the bytes that the regions of the word keep. -/
theorem run?_lines_eq_some_iff {text x : List Char} :
    run? families defs [] (Text.lines text) = some ⟨[], x⟩ ↔
      ∃ ps, pairings [] (ofText families text) = .ok ps ∧
        bytes x = select (Region.keepsByte (ps.map (Pairing.toRegion defs))) text := by
  constructor
  · intro h
    have hstack : run? families defs (ofStack defs []) (Text.lines text) = some ⟨[], x⟩ := h
    obtain ⟨ps, hps⟩ := pairings_of_run? hstack 0
    obtain ⟨y, hy, hbytes⟩ := exists_run?_of_pairings defs hps
    -- the scan has one outcome only
    obtain rfl : x = y := congrArg Scan.output (Option.some.inj (h.symm.trans hy))
    exact ⟨ps, hps, hbytes⟩
  · rintro ⟨ps, hps, hbytes⟩
    obtain ⟨y, hy, hbytes'⟩ := exists_run?_of_pairings defs hps
    rw [hy, bytes_injective (hbytes.trans hbytes'.symm)]

end Scan

end CondRegions
