import CondRegions.Proofs.Pass.Order
import CondRegions.Proofs.Marker.Shape
import Mathlib.Data.List.NodupEquivFin
import Mathlib.Data.List.Forall2

/-!
# What is left of the lines

No line of the output is put together from several lines of the source. A pass lets a line through,
or what stands behind a marker in front of it, or nothing (`Scan.remains_of_step?`). What is let
through of a line ends where the line ends, so the pieces are the lines of the output
(`Text.AreLines.of_suffixes`), and they stand in the order of the lines that they come from
(`LinesRemain`).

What three passes leave of a line is found by removing markers in front of it, one style after the
other (`Stripped`). A marker of the line style takes up its line, so nothing is left behind it, and
the lines that its pass leaves are whole. `transform_lines` is the statement for all passes and for
each of them.
-/

namespace CondRegions

open MarkerLine Scan

variable {family : Family} {families : List Family} {defs : Definitions} {path : String}
  {text line rest : List Char}

/-! ### Ends of lines -/

/-- The ends of lines, some lines left out, are lines. -/
theorem Text.AreLines.of_suffixes {lines left : List (List Char)} (h : AreLines lines)
    (hleft : List.SublistForall₂ (fun rest line => rest ≠ [] ∧ rest <:+ line) left lines) :
    AreLines left := by
  -- line by line; a line that is left out takes nothing from the others
  induction hleft with
  | nil => exact ⟨nofun, nofun, List.Pairwise.nil⟩
  | cons_right _ ih => exact ih (h.sublist (List.sublist_cons_self _ _))
  | @cons rest line left lines hrest hleft ih =>
    have htail := ih (h.sublist (List.sublist_cons_self _ _))
    obtain ⟨hne, head, rfl⟩ := hrest
    refine ⟨List.forall_mem_cons.mpr ⟨hne, htail.nonempty⟩,
      List.forall_mem_cons.mpr ⟨?_, htail.inner⟩,
      List.pairwise_cons.mpr ⟨fun next hnext => ?_, htail.full⟩⟩
    · exact not_mem_dropLast_of_append (h.inner _ List.mem_cons_self)
    · -- another piece comes from another line, so that this line ends in a line feed
      obtain ⟨origins, hforall, hsublist⟩ := List.sublistForall₂_iff.mp hleft
      obtain ⟨origin, horigin⟩ : ∃ origin, origin ∈ origins := by
        cases hforall with
        | nil => exact absurd hnext List.not_mem_nil
        | cons _ _ => exact ⟨_, List.mem_cons_self⟩
      have hfull := List.rel_of_pairwise_cons h.full (hsublist.mem horigin)
      rwa [List.getLast?_append_of_ne_nil _ hne] at hfull

/-- **Lines that remain.** Each line of the second text is what `remains` of a line of the first
one, and a strictly increasing map takes the former to the latter. -/
def LinesRemain (remains : List Char → List Char → Prop) (source left : List Char) : Prop :=
  ∃ origin : Fin (Text.lines left).length ↪o Fin (Text.lines source).length,
    ∀ i, remains ((Text.lines source).get (origin i)) ((Text.lines left).get i)

namespace LinesRemain

variable {remains remains' : List Char → List Char → Prop} {source left left' : List Char}

theorem refl (h : ∀ line, remains line line) (source : List Char) :
    LinesRemain remains source source :=
  ⟨RelEmbedding.refl _, fun _ => h _⟩

theorem mono (h : LinesRemain remains source left)
    (himp : ∀ line rest, remains line rest → remains' line rest) :
    LinesRemain remains' source left := by
  obtain ⟨origin, horigin⟩ := h
  exact ⟨origin, fun i => himp _ _ (horigin i)⟩

/-- A line that remains is not empty. -/
theorem nonempty (h : LinesRemain remains source left) :
    LinesRemain (fun line rest => remains line rest ∧ rest ≠ []) source left := by
  obtain ⟨origin, horigin⟩ := h
  refine ⟨origin, fun i => ⟨horigin i, ?_⟩⟩
  exact (Text.areLines_lines left).nonempty _ (List.get_mem _ i)

/-- What is left of the lines has no other characters. -/
theorem mem (h : LinesRemain remains source left)
    (hsuffix : ∀ line rest, remains line rest → rest <:+ line) {c : Char} (hc : c ∈ left) :
    c ∈ source := by
  -- a character of the second text stands in one of its lines, and so in the line that this comes
  -- from
  obtain ⟨origin, horigin⟩ := h
  rw [← Text.flatten_lines left] at hc
  obtain ⟨rest, hrest, hmem⟩ := List.mem_flatten.mp hc
  obtain ⟨i, rfl⟩ := List.get_of_mem hrest
  rw [← Text.flatten_lines source]
  exact List.mem_flatten_of_mem (List.get_mem _ (origin i)) ((hsuffix _ _ (horigin i)).mem hmem)

/-- What is left of what is left. -/
theorem trans (h : LinesRemain remains source left) (h' : LinesRemain remains' left left') :
    LinesRemain (fun line rest => ∃ mid, remains line mid ∧ remains' mid rest) source left' := by
  obtain ⟨origin, horigin⟩ := h
  obtain ⟨origin', horigin'⟩ := h'
  exact ⟨origin'.trans origin, fun i => ⟨_, horigin (origin' i), horigin' i⟩⟩

/-- Pieces of consecutive lines are the lines that remain. -/
theorem of_pieces {pieces : List (List Char)}
    (hpieces : List.SublistForall₂ (fun rest line => remains line rest) pieces (Text.lines source))
    (hends : ∀ line rest, remains line rest → rest ≠ [] ∧ rest <:+ line) :
    LinesRemain remains source pieces.flatten := by
  obtain ⟨origins, hforall, hsublist⟩ := List.sublistForall₂_iff.mp hpieces
  -- pieces that are ends of lines are the lines of what they make up
  have hlines : Text.lines pieces.flatten = pieces := by
    refine Text.lines_flatten ((Text.areLines_lines source).of_suffixes ?_)
    exact List.sublistForall₂_iff.mpr ⟨origins, hforall.imp fun rest line => hends line rest,
      hsublist⟩
  obtain ⟨origin, horigin⟩ := List.sublist_iff_exists_fin_orderEmbedding_get_eq.mp hsublist
  unfold LinesRemain
  rw [hlines]
  -- a piece has the place that its line has among those that are not left out
  refine ⟨(Fin.castOrderIso hforall.length_eq).toOrderEmbedding.trans origin, fun i => ?_⟩
  have hget := hforall.get i.isLt (hforall.length_eq ▸ i.isLt)
  rw [horigin] at hget
  exact hget

end LinesRemain

/-! ### Markers in front of a line -/

/-- **Stripped lines.** What is left of a line if, for each of the given styles in turn, a marker of
the style in front of it is removed, or the line stays as it is. -/
inductive Stripped : List Family → List Char → List Char → Prop where
  | whole {line : List Char} : Stripped [] line line
  | kept {family : Family} {families : List Family} {line rest : List Char}
      (h : Stripped families line rest) : Stripped (family :: families) line rest
  | removed {family : Family} {families : List Family} {line rest : List Char} {b : Bracket}
      (hb : bracketOf? line family = some b)
      (h : Stripped families (Text.dropBytes b.span.stop line) rest) :
      Stripped (family :: families) line rest

namespace Stripped

theorem refl (families : List Family) (line : List Char) : Stripped families line line := by
  induction families with
  | nil => exact .whole
  | cons family families ih => exact .kept ih

theorem suffix (h : Stripped families line rest) : rest <:+ line := by
  -- only removing a marker shortens the line, and it does so at the front
  induction h with
  | whole => exact List.suffix_refl _
  | kept _ ih => exact ih
  | removed hb _ ih => exact ih.trans (dropBytes_suffix hb)

theorem append {families' : List Family} {rest' : List Char} (h : Stripped families line rest)
    (h' : Stripped families' rest rest') : Stripped (families ++ families') line rest' := by
  induction h with
  | whole => exact h'
  | kept _ ih => exact .kept (ih h')
  | removed hb _ ih => exact .removed hb (ih h')

/-- A marker of the line style has nothing behind it on its line. -/
theorem eq_of_line (h : Stripped [.line] line rest) (hne : rest ≠ []) : rest = line := by
  cases h with
  | kept h =>
    cases h
    rfl
  | removed hb h =>
    cases h
    -- the marker takes up the line, so nothing would be left
    refine absurd ?_ hne
    rw [stop_of_line_style hb]
    simpa using Text.dropBytes_byteLength_append line []

end Stripped

/-! ### One pass -/

namespace Scan

/-- What a pass lets through of a line, if it is not nothing: the line, or what stands behind a
marker of the style in front of it. -/
def Remains (family : Family) (line rest : List Char) : Prop :=
  rest ≠ [] ∧ Stripped [family] line rest

theorem remains_emit {opened : List OpenRegion} (h : Stripped [family] line rest) :
    emit opened rest = [] ∨ Remains family line (emit opened rest) := by
  unfold emit
  split
  · by_cases hrest : rest = []
    · exact .inl hrest
    · exact .inr ⟨hrest, h⟩
  · exact .inl rfl

/-- **One line.** -/
theorem remains_of_step? {opened : List OpenRegion} {s : Scan}
    (h : step? [family] defs opened line = some s) :
    s.output = [] ∨ Remains family line s.output := by
  -- a line without a marker of the style stays, any other one loses its marker
  rcases step?_cases h with ⟨-, rfl⟩ | ⟨b, hb, -, hout⟩
  · exact remains_emit (.refl _ _)
  · obtain ⟨hmem, hof⟩ := bracket?_eq_some_iff.mp hb
    rw [List.mem_singleton.mp hmem] at hof
    rw [hout]
    exact remains_emit (.removed hof .whole)

/-- **All lines.** What is let through are pieces of lines, in the order of the lines. -/
theorem pieces_of_run? {opened : List OpenRegion} {lines : List (List Char)} {s : Scan}
    (h : run? [family] defs opened lines = some s) :
    ∃ pieces, s.output = pieces.flatten ∧
      List.SublistForall₂ (fun rest line => Remains family line rest) pieces lines := by
  -- along the lines, one piece at most for each of them
  induction lines generalizing opened s with
  | nil =>
    obtain rfl := Option.some.inj h
    exact ⟨[], rfl, .nil⟩
  | cons line lines ih =>
    obtain ⟨t, u, ht, hu, rfl⟩ := run?_cons_eq_some.mp h
    obtain ⟨pieces, hpieces, hremain⟩ := ih hu
    rcases remains_of_step? ht with hnone | hsome
    · -- a line of which nothing is left has no piece
      refine ⟨pieces, ?_, .cons_right hremain⟩
      show t.output ++ u.output = _
      rw [hnone, List.nil_append, hpieces]
    · refine ⟨t.output :: pieces, ?_, .cons hsome hremain⟩
      rw [List.flatten_cons, hpieces]

end Scan

/-- **Lines that a pass leaves.** Each is a line of the text, or, if a marker of the style was in
front of the line and was removed, what stood behind it. -/
theorem linesRemain_applyFamily (family : Family) (text : List Char) (defs : Definitions)
    (path : String) :
    LinesRemain (Stripped [family]) text (applyFamily family text defs path).text := by
  by_cases h : ∃ x, run? [family] defs [] (Text.lines text) = some ⟨[], x⟩
  · obtain ⟨x, hx⟩ := h
    -- a pass that succeeds leaves what the scan lets through
    obtain ⟨pieces, hpieces, hremain⟩ := pieces_of_run? hx
    rw [(applyFamily_of_run? hx path).1, show x = pieces.flatten from hpieces]
    refine (LinesRemain.of_pieces hremain fun line rest h => ⟨h.1, h.2.suffix⟩).mono ?_
    exact fun line rest h => h.2
  · -- a pass that fails leaves the text as it is
    rw [(applyFamily_of_not_run? (not_exists.mp h) path).1]
    exact .refl (Stripped.refl _) text

/-- The pass of the line style leaves whole lines. -/
theorem linesRemain_applyFamily_line (text : List Char) (defs : Definitions) (path : String) :
    LinesRemain (fun line rest => rest = line) text (applyFamily .line text defs path).text :=
  (linesRemain_applyFamily .line text defs path).nonempty.mono fun _ _ h => h.1.eq_of_line h.2

/-! ### All passes -/

/-- **Lines that are left.** A strictly increasing map takes each line of the transformed code to a
line of the source of which it is the end: it is the whole line, unless a marker of the html style,
one of the block style, or one behind the other, stood in front of it on that line and was removed.
The same is true of the lines that a single pass leaves, for the markers of its style, and the lines
that the pass of the line style leaves are whole. -/
theorem transform_lines (source path : String) (defs : Definitions) :
    LinesRemain (fun line rest => rest <:+ line ∧ Stripped [.html, .block] line rest)
      source.toList (transform source path defs).code.toList ∧
    (∀ family text, LinesRemain (fun line rest => rest <:+ line ∧ Stripped [family] line rest)
      text (applyFamily family text defs path).text) ∧
    ∀ text, LinesRemain (fun line rest => rest = line) text
      (applyFamily .line text defs path).text := by
  refine ⟨?_, fun family text => ?_, fun text => linesRemain_applyFamily_line text defs path⟩
  · -- the texts that the first two passes leave
    let second := (applyFamily .html source.toList defs path).text
    let third := (applyFamily .line second defs path).text
    rw [show (transform source path defs).code.toList =
      (applyFamily .block third defs path).text from toList_code_transform source path defs]
    have hpasses := ((linesRemain_applyFamily .html source.toList defs path).trans
      (linesRemain_applyFamily_line second defs path)).trans
      (linesRemain_applyFamily .block third defs path)
    refine hpasses.mono ?_
    -- the pass in between adds nothing to what is removed: it leaves `mid` whole
    rintro line rest ⟨_, ⟨mid, hhtml, rfl⟩, hblock⟩
    have hstripped : Stripped [.html, .block] line rest := hhtml.append hblock
    exact ⟨hstripped.suffix, hstripped⟩
  · exact (linesRemain_applyFamily family text defs path).mono fun _ _ h => ⟨h.suffix, h⟩

end CondRegions
