import CondRegions.Proofs.Marker.Shape

/-!
# Line breaks at marker lines

What ends a line, be it a line feed, a carriage return and a line feed, or the end of the text, does
not decide whether the line begins with a marker, nor what the marker says. The recognisers read
from the left, and each of them gives the same answer on a line without its end, with the end put
behind what it leaves (`MarkerLine.afterHash?_append_end` and those that follow). Only how far the
marker reaches depends on the end: a line break belongs to the marker if nothing but blanks stands
before it (`MarkerLine.leftover`).

So the bracket of a line is the bracket of the line without its end, made to reach as far as it does
(`MarkerLine.bracket?_append_end`).
-/

namespace CondRegions

namespace MarkerLine

/-! ### Ends of lines -/

/-- **What ends a line**: a line break, or nothing where the text ends. -/
def IsLineEnd (cs : List Char) : Prop :=
  isLineBreak cs = true ∨ cs = []

/-- **A line without its end** has no part of a line break. -/
def IsBody (cs : List Char) : Prop :=
  '\r' ∉ cs ∧ '\n' ∉ cs

instance (cs : List Char) : Decidable (IsBody cs) :=
  inferInstanceAs (Decidable (_ ∧ _))

theorem IsBody.sublist {cs ds : List Char} (h : IsBody cs) (hds : ds.Sublist cs) : IsBody ds :=
  ⟨fun hmem => h.1 (hds.mem hmem), fun hmem => h.2 (hds.mem hmem)⟩

theorem IsBody.skipBlanks {cs : List Char} (h : IsBody cs) : IsBody (Text.skipBlanks cs) :=
  h.sublist (List.dropWhile_sublist isBlank)

theorem isBody_opener (family : Family) : IsBody family.opener := by
  cases family <;> decide

theorem isBody_closer {family : Family} {closer : List Char} (h : family.closer? = some closer) :
    IsBody closer ∧ closer ≠ [] := by
  cases family with
  | line => cases h
  | html =>
    obtain rfl := Option.some.inj h
    decide
  | block =>
    obtain rfl := Option.some.inj h
    decide

/-- A line break stands alone: nothing of a line belongs to it. -/
theorem isLineBreak_append {cs : List Char} (hcs : IsBody cs) (lineEnd : List Char) :
    isLineBreak (cs ++ lineEnd) = (isLineBreak lineEnd && cs.isEmpty) := by
  cases cs with
  | nil => rw [List.nil_append, List.isEmpty_nil, Bool.and_true]
  | cons c cs =>
    rw [List.isEmpty_cons, Bool.and_false, Bool.eq_false_iff, ne_eq, isLineBreak_iff]
    rintro (h | h)
    · exact hcs.2 ((List.cons.inj h).1 ▸ List.mem_cons_self)
    · exact hcs.1 ((List.cons.inj h).1 ▸ List.mem_cons_self)

theorem isLineBreak_body {cs : List Char} (hcs : IsBody cs) : isLineBreak cs = false := by
  have happend := isLineBreak_append hcs []
  rwa [List.append_nil] at happend

/-- **What is left of a line behind a marker**, if `rest` stands between the marker and the end of
the line. A line break that only blanks separate from the marker belongs to the marker. -/
def leftover (rest lineEnd : List Char) : List Char :=
  if isLineBreak lineEnd && (Text.skipBlanks rest).isEmpty then [] else rest ++ lineEnd

theorem leftover_suffix {rest cs : List Char} (h : rest <:+ cs) (lineEnd : List Char) :
    leftover rest lineEnd <:+ cs ++ lineEnd := by
  unfold leftover
  split
  · exact List.nil_suffix
  · obtain ⟨start, rfl⟩ := h
    rw [List.append_assoc]
    exact List.suffix_append start _

theorem afterCloser_body {rest : List Char} (hrest : IsBody rest) : afterCloser rest = rest :=
  if_neg (Bool.eq_false_iff.mp (isLineBreak_body hrest.skipBlanks))

section

variable {family : Family} {lineEnd : List Char} (hend : IsLineEnd lineEnd)

include hend

theorem IsLineEnd.cases : lineEnd = ['\n'] ∨ lineEnd = ['\r', '\n'] ∨ lineEnd = [] := by
  rcases hend with h | h
  · exact (isLineBreak_iff.mp h).elim .inl (fun h => .inr (.inl h))
  · exact .inr (.inr h)

/-! ### Reading a line from the left -/

theorem skipBlanks_append_end (cs : List Char) :
    Text.skipBlanks (cs ++ lineEnd) = Text.skipBlanks cs ++ lineEnd := by
  obtain ⟨blanks, hblanks, hcs, hhead⟩ := Text.skipBlanks_cases cs
  have hrest : Text.skipBlanks (Text.skipBlanks cs ++ lineEnd) = Text.skipBlanks cs ++ lineEnd := by
    cases hskip : Text.skipBlanks cs with
    | nil => rcases hend.cases with rfl | rfl | rfl <;> rfl
    | cons c rest => exact Text.skipBlanks_cons (hhead c rest hskip) _
  -- blanks are skipped up to a character of the line, or up to its end if there is none
  calc Text.skipBlanks (cs ++ lineEnd)
      = Text.skipBlanks (blanks ++ (Text.skipBlanks cs ++ lineEnd)) := by
        rw [← List.append_assoc, ← hcs]
    _ = Text.skipBlanks cs ++ lineEnd := by rw [Text.skipBlanks_append hblanks, hrest]

/-- A text without parts of a line break is not continued by the end of the line. -/
theorem isPrefixOf?_append_end {start : List Char} (hstart : IsBody start) (cs : List Char) :
    start.isPrefixOf? (cs ++ lineEnd) = (start.isPrefixOf? cs).map (· ++ lineEnd) := by
  induction start generalizing cs with
  | nil => rfl
  | cons c start ih =>
    have htail := hstart.sublist (List.sublist_cons_self c start)
    cases cs with
    | nil =>
      -- the line is used up, and `c` would have to begin its end
      have hreturn : c ≠ '\r' := fun h => hstart.1 (h ▸ List.mem_cons_self)
      have hfeed : c ≠ '\n' := fun h => hstart.2 (h ▸ List.mem_cons_self)
      rcases hend.cases with rfl | rfl | rfl
      · exact if_neg (by simpa using hfeed)
      · exact if_neg (by simpa using hreturn)
      · rfl
    | cons d cs =>
      change (if c == d then start.isPrefixOf? (cs ++ lineEnd) else none) =
        (if c == d then start.isPrefixOf? cs else none).map (· ++ lineEnd)
      split
      · exact ih htail cs
      · rfl

theorem afterHash?_append_end (cs : List Char) :
    afterHash? family (cs ++ lineEnd) = (afterHash? family cs).map (· ++ lineEnd) := by
  unfold afterHash?
  rw [skipBlanks_append_end hend, isPrefixOf?_append_end hend (isBody_opener family)]
  cases family.opener.isPrefixOf? (Text.skipBlanks cs) with
  | none => rfl
  | some body =>
    show ['#'].isPrefixOf? (Text.skipBlanks (body ++ lineEnd)) = _
    rw [skipBlanks_append_end hend, isPrefixOf?_append_end hend (by decide)]
    rfl

theorem afterBlanks?_append_end (cs : List Char) :
    afterBlanks? (cs ++ lineEnd) = (afterBlanks? cs).map (· ++ lineEnd) := by
  cases cs with
  | nil => rcases hend.cases with rfl | rfl | rfl <;> rfl
  | cons c cs =>
    rw [List.cons_append, afterBlanks?, afterBlanks?, skipBlanks_append_end hend]
    split <;> rfl

theorem startDirective?_append_end (cs : List Char) :
    startDirective? (cs ++ lineEnd) =
      (startDirective? cs).map fun (kind, rest) => (kind, rest ++ lineEnd) := by
  unfold startDirective?
  rw [isPrefixOf?_append_end hend (by decide), isPrefixOf?_append_end hend (by decide),
    isPrefixOf?_append_end hend (by decide)]
  cases "ifdef".toList.isPrefixOf? cs with
  | some rest => rfl
  | none =>
    cases "ifndef".toList.isPrefixOf? cs with
    | some rest => rfl
    | none =>
      cases "region".toList.isPrefixOf? cs with
      | none => rfl
      | some region =>
        show (afterBlanks? (region ++ lineEnd)).bind _ = Option.map _ ((afterBlanks? region).bind _)
        rw [afterBlanks?_append_end hend]
        cases afterBlanks? region with
        | none => rfl
        | some words =>
          rw [Option.map_some, Option.bind_some, Option.bind_some,
            isPrefixOf?_append_end hend (by decide), isPrefixOf?_append_end hend (by decide)]
          cases "ifdef".toList.isPrefixOf? words with
          | some rest => rfl
          | none => cases "ifndef".toList.isPrefixOf? words <;> rfl

theorem endDirective?_append_end (cs : List Char) :
    endDirective? (cs ++ lineEnd) =
      (endDirective? cs).map fun (kind, rest) => (kind, rest ++ lineEnd) := by
  unfold endDirective?
  rw [isPrefixOf?_append_end hend (by decide), isPrefixOf?_append_end hend (by decide)]
  cases "endif".toList.isPrefixOf? cs with
  | some rest => rfl
  | none =>
    cases "endregion".toList.isPrefixOf? cs with
    | none => rfl
    | some region =>
      show (afterBlanks? (region ++ lineEnd)).bind _ = Option.map _ ((afterBlanks? region).bind _)
      rw [afterBlanks?_append_end hend]
      cases afterBlanks? region with
      | none => rfl
      | some words =>
        rw [Option.map_some, Option.bind_some, Option.bind_some,
          isPrefixOf?_append_end hend (by decide)]
        cases "endif".toList.isPrefixOf? words <;> rfl

/-- There is no closer in the end of a line. -/
theorem splitAtFirst_end {needle : List Char} (hneedle : IsBody needle) (hne : needle ≠ []) :
    Text.splitAtFirst needle lineEnd = none := by
  cases hsplit : Text.splitAtFirst needle lineEnd with
  | none => rfl
  | some parts =>
    obtain ⟨before, rest⟩ := parts
    obtain ⟨heq, -⟩ := Text.splitAtFirst_eq_some_iff.mp hsplit
    obtain ⟨c, hc⟩ := List.exists_mem_of_ne_nil needle hne
    have hmem : c ∈ lineEnd := by
      rw [heq]
      exact List.mem_append_left _ (List.mem_append_right _ hc)
    -- all characters of the end of a line are parts of a line break
    have hpart : c = '\r' ∨ c = '\n' := by
      rcases hend.cases with rfl | rfl | rfl
      · exact .inr (List.mem_singleton.mp hmem)
      · simpa using hmem
      · exact absurd hmem List.not_mem_nil
    rcases hpart with rfl | rfl
    · exact absurd hc hneedle.1
    · exact absurd hc hneedle.2

/-- No closer reaches into the end of a line either. -/
theorem splitAtFirst_append_end {needle : List Char} (hneedle : IsBody needle) (hne : needle ≠ [])
    (cs : List Char) :
    Text.splitAtFirst needle (cs ++ lineEnd) =
      (Text.splitAtFirst needle cs).map fun (before, rest) => (before, rest ++ lineEnd) := by
  induction cs with
  | nil =>
    have hnil : Text.splitAtFirst needle [] = none := splitAtFirst_end (.inr rfl) hneedle hne
    rw [List.nil_append, splitAtFirst_end hend hneedle hne, hnil]
    rfl
  | cons c cs ih =>
    rw [List.cons_append, Text.splitAtFirst, Text.splitAtFirst, ← List.cons_append,
      isPrefixOf?_append_end hend hneedle, ih]
    cases needle.isPrefixOf? (c :: cs) with
    | some rest => rfl
    | none => cases Text.splitAtFirst needle cs <;> rfl

/-! ### Behind the marker -/

theorem leftover_nil : leftover [] lineEnd = [] := by
  rcases hend.cases with rfl | rfl | rfl <;> rfl

theorem afterCloser_append_end {rest : List Char} (hrest : IsBody rest) :
    afterCloser (rest ++ lineEnd) = leftover rest lineEnd := by
  unfold afterCloser leftover
  rw [skipBlanks_append_end hend,
    isLineBreak_append hrest.skipBlanks]

theorem condition?_append_end {cs : List Char} (hcs : IsBody cs) :
    condition? family (cs ++ lineEnd) =
      (condition? family cs).map fun (condition, after) => (condition, leftover after lineEnd) := by
  cases cs with
  | nil => rcases hend.cases with rfl | rfl | rfl <;> rfl
  | cons c more =>
    rw [List.cons_append, condition?, condition?]
    split
    · rfl
    · cases hcloser : family.closer? with
      | none =>
        -- the condition takes up the line
        have hdrop := dropLineBreak_append hcs.1 hcs.2 hend
        have hdrop' := dropLineBreak_append hcs.1 hcs.2 (.inr rfl)
        rw [List.append_nil] at hdrop'
        rw [List.cons_append] at hdrop
        dsimp only
        rw [hdrop, hdrop']
        split
        · rfl
        · rw [Option.map_some, leftover_nil hend]
      | some closer =>
        obtain ⟨hbody, hne⟩ := isBody_closer hcloser
        dsimp only
        rw [splitAtFirst_append_end hend hbody hne]
        cases hsplit : Text.splitAtFirst closer more with
        | none => rfl
        | some parts =>
          obtain ⟨before, rest⟩ := parts
          have hrest : IsBody rest := hcs.sublist
            ((suffix_of_splitAtFirst hsplit).sublist.trans (List.sublist_cons_self c more))
          simp only [Option.map_some, afterCloser_append_end hend hrest, afterCloser_body hrest]

theorem afterEnd?_append_end {cs : List Char} (hcs : IsBody cs) :
    afterEnd? family (cs ++ lineEnd) =
      (afterEnd? family cs).map fun after => leftover after lineEnd := by
  have hskip := hcs.skipBlanks
  unfold afterEnd?
  rw [skipBlanks_append_end hend]
  cases hcloser : family.closer? with
  | none =>
    dsimp only
    rw [isLineBreak_append hskip, isLineBreak_body hskip]
    cases Text.skipBlanks cs with
    | nil =>
      have hwhole : (([] ++ lineEnd).isEmpty ||
          (isLineBreak lineEnd && ([] : List Char).isEmpty)) = true := by
        rcases hend.cases with rfl | rfl | rfl <;> rfl
      rw [if_pos hwhole]
      show some [] = some (leftover [] lineEnd)
      rw [leftover_nil hend]
    | cons c rest =>
      rw [List.isEmpty_cons, Bool.and_false, if_neg nofun, if_neg nofun, Option.map_none]
  | some closer =>
    dsimp only
    rw [isPrefixOf?_append_end hend (isBody_closer hcloser).1]
    cases hrest : closer.isPrefixOf? (Text.skipBlanks cs) with
    | none => rfl
    | some rest =>
      have hrest : IsBody rest := hskip.sublist (suffix_of_isPrefixOf? hrest).sublist
      simp only [Option.map_some, afterCloser_append_end hend hrest, afterCloser_body hrest]

end

end MarkerLine

/-! ### Markers and brackets -/

open MarkerLine

/-- The marker that a line begins with, if `lineEnd` is put behind the line. -/
def Marker.withEnd (line lineEnd : List Char) (m : Marker) : Marker :=
  { m with span := ⟨0, Text.byteLength (line ++ lineEnd) -
      Text.byteLength (leftover (Text.dropBytes m.span.stop line) lineEnd)⟩ }

/-- The bracket that a line begins with, if `lineEnd` is put behind the line. -/
def Bracket.withEnd (line lineEnd : List Char) : Bracket → Bracket
  | .opening f m => .opening f (m.withEnd line lineEnd)
  | .closing f m => .closing f (m.withEnd line lineEnd)

theorem Text.dropBytes_of_suffix {xs ys : List Char} (h : ys <:+ xs) :
    dropBytes (byteLength xs - byteLength ys) xs = ys := by
  obtain ⟨start, rfl⟩ := h
  rw [byteLength_append, Nat.add_sub_cancel, dropBytes_byteLength_append]

namespace MarkerLine

variable {family : Family} {families : List Family} {lineEnd cs : List Char}

theorem startOnLine?_append_end (hend : IsLineEnd lineEnd) (hcs : IsBody cs) :
    startOnLine? family (cs ++ lineEnd) =
      (startOnLine? family cs).map (Marker.withEnd cs lineEnd) := by
  unfold startOnLine?
  simp only [Option.bind_eq_bind, afterHash?_append_end hend]
  cases hhash : afterHash? family cs with
  | none => rfl
  | some directive =>
    simp only [Option.map_some, Option.bind_some, startDirective?_append_end hend]
    cases hdirective : startDirective? directive with
    | none => rfl
    | some parts =>
      obtain ⟨kind, rest⟩ := parts
      simp only [Option.map_some, Option.bind_some, afterBlanks?_append_end hend]
      cases hblanks : afterBlanks? rest with
      | none => rfl
      | some body =>
        have hbody : body <:+ cs := (suffix_of_afterBlanks? hblanks).trans
          ((suffix_of_startDirective? hdirective).trans (afterHash?_eq_some hhash).2.1)
        simp only [Option.map_some, Option.bind_some,
          condition?_append_end hend (hcs.sublist hbody.sublist)]
        cases hcondition : condition? family body with
        | none => rfl
        | some parts =>
          obtain ⟨condition, after⟩ := parts
          have hafter : after <:+ cs := (suffix_of_condition? hcondition).trans hbody
          -- the place of the condition is counted from the start of the line
          have hoffset : Text.byteLength (cs ++ lineEnd) - Text.byteLength (body ++ lineEnd) =
              Text.byteLength cs - Text.byteLength body := by
            rw [Text.byteLength_append, Text.byteLength_append, Nat.add_sub_add_right]
          simp only [Option.pure_def, Option.map_some, Option.bind_some, hoffset, Marker.withEnd,
            Text.dropBytes_of_suffix hafter]

theorem endOnLine?_append_end (hend : IsLineEnd lineEnd) (hcs : IsBody cs) :
    endOnLine? family (cs ++ lineEnd) = (endOnLine? family cs).map (Marker.withEnd cs lineEnd) := by
  unfold endOnLine?
  simp only [Option.bind_eq_bind, afterHash?_append_end hend]
  cases hhash : afterHash? family cs with
  | none => rfl
  | some directive =>
    simp only [Option.map_some, Option.bind_some, endDirective?_append_end hend]
    cases hdirective : endDirective? directive with
    | none => rfl
    | some parts =>
      obtain ⟨kind, rest⟩ := parts
      have hrest : rest <:+ cs :=
        (suffix_of_endDirective? hdirective).trans (afterHash?_eq_some hhash).2.1
      simp only [Option.map_some, Option.bind_some,
        afterEnd?_append_end hend (hcs.sublist hrest.sublist)]
      cases hafter : afterEnd? family rest with
      | none => rfl
      | some after =>
        have hsuffix : after <:+ cs := (suffix_of_afterEnd? hafter).trans hrest
        simp only [Option.pure_def, Option.map_some, Option.bind_some, Marker.withEnd,
          Text.dropBytes_of_suffix hsuffix]

/-- **The bracket of a line and the end of the line.** -/
theorem bracket?_append_end (families : List Family) (hend : IsLineEnd lineEnd) (hcs : IsBody cs) :
    bracket? families (cs ++ lineEnd) =
      (bracket? families cs).map (Bracket.withEnd cs lineEnd) := by
  have hof : ∀ family, bracketOf? (cs ++ lineEnd) family =
      (bracketOf? cs family).map (Bracket.withEnd cs lineEnd) := by
    intro family
    unfold bracketOf?
    rw [startOnLine?_append_end hend hcs, endOnLine?_append_end hend hcs]
    cases startOnLine? family cs with
    | some m => rfl
    | none => cases endOnLine? family cs <;> rfl
  unfold bracket?
  rw [List.map_findSome?]
  exact congrArg (families.findSome? ·) (funext hof)

/-- What is left of a line behind its bracket. -/
theorem dropBytes_withEnd {b : Bracket} (hb : bracket? families cs = some b) (lineEnd : List Char) :
    Text.dropBytes (b.withEnd cs lineEnd).span.stop (cs ++ lineEnd) =
      leftover (Text.dropBytes b.span.stop cs) lineEnd := by
  have hsuffix := leftover_suffix (dropBytes_suffix (bracket?_eq_some_iff.mp hb).2) lineEnd
  cases b with
  | opening f m => exact Text.dropBytes_of_suffix hsuffix
  | closing f m => exact Text.dropBytes_of_suffix hsuffix

end MarkerLine

end CondRegions
