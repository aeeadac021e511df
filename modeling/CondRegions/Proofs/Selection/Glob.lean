import CondRegions.Glob
import Mathlib.Data.List.Basic
import Mathlib.Data.List.Forall2

/-!
# What a glob matches

A glob is explained without rows of answers: a piece takes certain texts (`GlobPiece.Takes`), and
pieces match a text that can be cut into parts, one for each piece, so that each piece takes its
part (`Glob.Matches`). There may be many ways to cut it. A pattern is read from left to right, `**`
with a slash behind it before `**`, and this before `*` (`Glob.Reads`).

* `Glob.RowOf` — what a row of answers says: at each place of a text, whether the rest belongs to a
  language;
* `Glob.RowOf.piece` — the row of a piece, given the row of what follows it;
* `Glob.isMatch_iff` — so matching tells whether the text can be cut in some way;
* `Glob.reads_iff` — the pieces of a pattern are those that it is read as;
* `Glob.isMatch_ofPattern_iff` — the two together, for the glob of a pattern.
-/

namespace CondRegions

/-! ### Languages of pieces -/

/-- **The texts that a piece takes.** -/
def GlobPiece.Takes : GlobPiece → List Char → Prop
  | .directories, u => u = [] ∨ ('\n' ∉ u ∧ u.getLast? = some '/')
  | .anything, u => '\n' ∉ u
  | .segment, u => '/' ∉ u
  | .anyChar, u => ∃ c, c ≠ '/' ∧ u = [c]
  | .char c, u => u = [c]

namespace Glob

/-- **Matches.** The text is made up of parts, one for each piece in order, and each piece takes its
part. -/
def Matches (pieces : List GlobPiece) (text : List Char) : Prop :=
  ∃ parts, List.Forall₂ GlobPiece.Takes pieces parts ∧ text = parts.flatten

theorem matches_nil {text : List Char} : Matches [] text ↔ text = [] := by
  constructor
  · rintro ⟨parts, hparts, rfl⟩
    cases hparts
    rfl
  · rintro rfl
    exact ⟨[], .nil, rfl⟩

/-- The first piece takes a part at the start, and the others match the rest. -/
theorem matches_cons {piece : GlobPiece} {pieces : List GlobPiece} {text : List Char} :
    Matches (piece :: pieces) text ↔ ∃ u v, text = u ++ v ∧ piece.Takes u ∧ Matches pieces v := by
  constructor
  · rintro ⟨parts, hparts, rfl⟩
    obtain ⟨u, later, hu, hlater, rfl⟩ := List.forall₂_cons_left_iff.mp hparts
    exact ⟨u, later.flatten, List.flatten_cons, hu, later, hlater, rfl⟩
  · rintro ⟨u, v, rfl, hu, later, hlater, rfl⟩
    exact ⟨u :: later, .cons hu hlater, List.flatten_cons.symm⟩

/-! ### Rows of answers -/

/-- **Rows.** The row says, for the text and for each of its rests down to the empty one, whether it
belongs to the language `L`. -/
inductive RowOf (L : List Char → Prop) : List Char → List Bool → Prop where
  | nil {b : Bool} (h : b = true ↔ L []) : RowOf L [] [b]
  | cons {c : Char} {cs : List Char} {b : Bool} {row : List Bool} (h : b = true ↔ L (c :: cs))
      (later : RowOf L cs row) : RowOf L (c :: cs) (b :: row)

namespace RowOf

variable {L L' : List Char → Prop} {cs : List Char} {row row' : List Bool} {p : Char → Bool}

/-- The first answer is on the whole text. -/
theorem first_iff (h : RowOf L cs row) : first row = true ↔ L cs := by
  cases h with
  | nil h => exact h
  | cons h _ => exact h

theorem congr (h : RowOf L cs row) (heq : ∀ t, L t ↔ L' t) : RowOf L' cs row := by
  rwa [show L = L' from funext fun t => propext (heq t)] at h

/-- The row of the empty glob. -/
theorem empty (cs : List Char) : RowOf (· = []) cs (emptyRow cs) := by
  induction cs with
  | nil => exact .nil (iff_of_true rfl rfl)
  | cons c cs ih => exact .cons (iff_of_false Bool.false_ne_true (List.cons_ne_nil c cs)) ih

/-- The row of one character with `p`. -/
theorem one (h : RowOf L cs row) :
    RowOf (fun t => ∃ c u, t = c :: u ∧ p c = true ∧ L u) cs (oneRow p cs row) := by
  induction h with
  | nil _ => exact .nil (iff_of_false Bool.false_ne_true nofun)
  | @cons c cs b row _ later ih =>
    refine .cons ?_ ih
    show (p c && first row) = true ↔ _
    rw [Bool.and_eq_true, later.first_iff]
    constructor
    · rintro ⟨hc, hcs⟩
      exact ⟨c, cs, rfl, hc, hcs⟩
    · rintro ⟨c', u, heq, hc, hu⟩
      obtain ⟨rfl, rfl⟩ := List.cons.inj heq
      exact ⟨hc, hu⟩

/-- The row of any number of characters with `p`. -/
theorem many (h : RowOf L cs row) :
    RowOf (fun t => ∃ u v, t = u ++ v ∧ (∀ c ∈ u, p c = true) ∧ L v) cs (manyRow p cs row) := by
  induction h with
  | @nil b h =>
    refine .nil ?_
    show b = true ↔ _
    rw [h]
    constructor
    · exact fun hnil => ⟨[], [], rfl, nofun, hnil⟩
    · rintro ⟨u, v, heq, -, hv⟩
      rwa [(List.append_eq_nil_iff.mp heq.symm).2] at hv
  | @cons c cs b row h later ih =>
    refine .cons ?_ ih
    show (b || (p c && first (manyRow p cs row))) = true ↔ _
    rw [Bool.or_eq_true, Bool.and_eq_true, h, ih.first_iff]
    -- none of the characters is taken, or `c` and perhaps more
    constructor
    · rintro (hnone | ⟨hc, u, v, rfl, hu, hv⟩)
      · exact ⟨[], c :: cs, rfl, nofun, hnone⟩
      · exact ⟨c :: u, v, rfl, List.forall_mem_cons.mpr ⟨hc, hu⟩, hv⟩
    · rintro ⟨u, v, heq, hu, hv⟩
      cases u with
      | nil =>
        rw [List.nil_append] at heq
        exact .inl (heq ▸ hv)
      | cons c' u =>
        obtain ⟨rfl, rfl⟩ := List.cons.inj heq
        obtain ⟨hc, hu⟩ := List.forall_mem_cons.mp hu
        exact .inr ⟨hc, u, v, rfl, hu, hv⟩

/-- The row of at least one directory. -/
theorem directory (h : RowOf L cs row) :
    RowOf (fun t => ∃ u v, t = u ++ '/' :: v ∧ '\n' ∉ u ∧ L v) cs (directoryRow cs row) := by
  induction h with
  | nil _ =>
    refine .nil (iff_of_false Bool.false_ne_true ?_)
    rintro ⟨u, v, heq, -⟩
    exact absurd (List.append_eq_nil_iff.mp heq.symm).2 (List.cons_ne_nil _ _)
  | @cons c cs b row _ later ih =>
    refine .cons ?_ ih
    show (c != '\n' && (first (directoryRow cs row) || (c == '/' && first row))) = true ↔ _
    rw [Bool.and_eq_true, Bool.or_eq_true, Bool.and_eq_true, bne_iff_ne, beq_iff_eq, ih.first_iff,
      later.first_iff]
    -- the directory ends later, or `c` is the slash at its end
    constructor
    · rintro ⟨hc, ⟨u, v, rfl, hu, hv⟩ | ⟨rfl, hv⟩⟩
      · refine ⟨c :: u, v, rfl, ?_, hv⟩
        exact fun hmem => (List.mem_cons.mp hmem).elim (fun heq => hc heq.symm) hu
      · exact ⟨[], cs, rfl, List.not_mem_nil, hv⟩
    · rintro ⟨u, v, heq, hu, hv⟩
      cases u with
      | nil =>
        obtain ⟨rfl, rfl⟩ := List.cons.inj heq
        exact ⟨by decide, .inr ⟨rfl, hv⟩⟩
      | cons c' u =>
        obtain ⟨rfl, rfl⟩ := List.cons.inj heq
        obtain ⟨hc, hu⟩ := List.ne_and_not_mem_of_not_mem_cons hu
        exact ⟨Ne.symm hc, .inl ⟨u, v, rfl, hu, hv⟩⟩

/-- The row of two languages. -/
theorem or (h : RowOf L cs row) (h' : RowOf L' cs row') :
    RowOf (fun t => L t ∨ L' t) cs (List.zipWith (· || ·) row row') := by
  induction h generalizing row' with
  | nil hb =>
    cases h' with
    | nil hb' => exact .nil (by rw [Bool.or_eq_true, hb, hb'])
  | cons hb _ ih =>
    cases h' with
    | cons hb' later' => exact .cons (by rw [Bool.or_eq_true, hb, hb']) (ih later')

/-- **One piece.** The row of a piece, made from the row of what follows it. -/
theorem piece (h : RowOf L cs row) (piece : GlobPiece) :
    RowOf (fun t => ∃ u v, t = u ++ v ∧ piece.Takes u ∧ L v) cs (pieceRow piece cs row) := by
  -- a text that a run of characters takes has none of the characters that it must not have
  have hrun : ∀ (x : Char) (u : List Char), (∀ c ∈ u, (c != x) = true) ↔ x ∉ u := by
    intro x u
    simp only [bne_iff_ne]
    exact ⟨fun hall hmem => hall x hmem rfl, fun hnot c hc heq => hnot (heq ▸ hc)⟩
  cases piece with
  | directories =>
    refine (h.or h.directory).congr fun t => ?_
    simp only [GlobPiece.Takes, List.getLast?_eq_some_iff]
    constructor
    · rintro (ht | ⟨u, v, rfl, hu, hv⟩)
      · exact ⟨[], t, rfl, .inl rfl, ht⟩
      · refine ⟨u ++ ['/'], v, (List.append_cons u '/' v), .inr ⟨?_, u, rfl⟩, hv⟩
        simpa using hu
    · rintro ⟨_, v, rfl, rfl | ⟨hu, u, rfl⟩, hv⟩
      · exact .inl hv
      · exact .inr ⟨u, v, (List.append_cons u '/' v).symm,
          fun hmem => hu (List.mem_append_left _ hmem), hv⟩
  | anything => exact h.many.congr fun t => by simp only [GlobPiece.Takes, hrun]
  | segment => exact h.many.congr fun t => by simp only [GlobPiece.Takes, hrun]
  | anyChar =>
    refine h.one.congr fun t => ?_
    simp only [GlobPiece.Takes, bne_iff_ne]
    constructor
    · rintro ⟨c, u, rfl, hc, hu⟩
      exact ⟨[c], u, rfl, ⟨c, hc, rfl⟩, hu⟩
    · rintro ⟨_, v, rfl, ⟨c, hc, rfl⟩, hv⟩
      exact ⟨c, v, rfl, hc, hv⟩
  | char c =>
    refine h.one.congr fun t => ?_
    simp only [GlobPiece.Takes, beq_iff_eq]
    constructor
    · rintro ⟨_, u, rfl, rfl, hu⟩
      exact ⟨_, u, rfl, rfl, hu⟩
    · rintro ⟨_, v, rfl, rfl, hv⟩
      exact ⟨c, v, rfl, rfl, hv⟩

/-- **All pieces.** -/
theorem pieces (cs : List Char) (pieces : List GlobPiece) :
    RowOf (Matches pieces) cs (rowOf cs pieces) := by
  induction pieces with
  | nil => exact (empty cs).congr fun t => matches_nil.symm
  | cons piece pieces ih => exact (ih.piece piece).congr fun t => matches_cons.symm

end RowOf

/-- **Matching is cutting.** A glob matches a text exactly if the text is made up of parts that its
pieces take. -/
theorem isMatch_iff (g : Glob) (text : String) :
    g.isMatch text = true ↔ Matches g.pieces text.toList :=
  (RowOf.pieces text.toList g.pieces).first_iff

/-! ### Reading patterns -/

/-- **Reading.** The pieces of a pattern, from left to right. Of two stars with a slash behind them,
two stars, and one star, the first that fits is read. -/
inductive Reads : List Char → List GlobPiece → Prop where
  | nil : Reads [] []
  | directories {cs : List Char} {pieces : List GlobPiece} (later : Reads cs pieces) :
      Reads ('*' :: '*' :: '/' :: cs) (.directories :: pieces)
  | anything {cs : List Char} {pieces : List GlobPiece} (hslash : cs.head? ≠ some '/')
      (later : Reads cs pieces) : Reads ('*' :: '*' :: cs) (.anything :: pieces)
  | segment {cs : List Char} {pieces : List GlobPiece} (hstar : cs.head? ≠ some '*')
      (later : Reads cs pieces) : Reads ('*' :: cs) (.segment :: pieces)
  | anyChar {cs : List Char} {pieces : List GlobPiece} (later : Reads cs pieces) :
      Reads ('?' :: cs) (.anyChar :: pieces)
  | char {c : Char} {cs : List Char} {pieces : List GlobPiece} (hstar : c ≠ '*') (hmark : c ≠ '?')
      (later : Reads cs pieces) : Reads (c :: cs) (.char c :: pieces)

theorem reads_piecesOf (cs : List Char) : Reads cs (piecesOf cs) := by
  fun_induction piecesOf cs with
  | case1 cs ih => exact .directories ih
  | case2 cs hslash ih =>
    refine .anything (fun hhead => ?_) ih
    obtain ⟨rest, rfl⟩ := List.head?_eq_some_iff.mp hhead
    exact hslash rest rfl
  | case3 cs hslash hstar ih =>
    refine .segment (fun hhead => ?_) ih
    obtain ⟨rest, rfl⟩ := List.head?_eq_some_iff.mp hhead
    exact hstar rest rfl
  | case4 cs ih => exact .anyChar ih
  | case5 c cs _ _ hstar hmark ih => exact .char hstar hmark ih
  | case6 => exact .nil

theorem Reads.piecesOf_eq {cs : List Char} {pieces : List GlobPiece} (h : Reads cs pieces) :
    piecesOf cs = pieces := by
  induction h with
  | nil => rfl
  | directories _ ih => rw [piecesOf, ih]
  | @anything cs _ hslash _ ih =>
    have hnot : ∀ rest, cs ≠ '/' :: rest :=
      fun _ heq => hslash (List.head?_eq_some_iff.mpr ⟨_, heq⟩)
    rw [piecesOf.eq_2 _ hnot, ih]
  | @segment cs _ hstar _ ih =>
    have hnot : ∀ rest, cs ≠ '*' :: rest := fun _ heq => hstar (List.head?_eq_some_iff.mpr ⟨_, heq⟩)
    rw [piecesOf.eq_3 _ (fun rest => hnot ('/' :: rest)) hnot, ih]
  | anyChar _ ih => rw [piecesOf, ih]
  | char hstar hmark _ ih =>
    rw [piecesOf.eq_5 _ _ (fun _ heq _ => hstar heq) (fun _ heq _ => hstar heq) hstar hmark, ih]

/-- **The pieces of a pattern** are those that it is read as. -/
theorem reads_iff {cs : List Char} {pieces : List GlobPiece} :
    Reads cs pieces ↔ piecesOf cs = pieces := by
  constructor
  · exact Reads.piecesOf_eq
  · rintro rfl
    exact reads_piecesOf cs

/-- A pattern is read without one point and slash at its start. -/
def ReadsPattern (pattern : List Char) (pieces : List GlobPiece) : Prop :=
  (∃ cs, pattern = '.' :: '/' :: cs ∧ Reads cs pieces) ∨
    (¬ ['.', '/'] <+: pattern ∧ Reads pattern pieces)

theorem readsPattern_iff {pattern : List Char} {pieces : List GlobPiece} :
    ReadsPattern pattern pieces ↔ piecesOf (dropHere pattern) = pieces := by
  rw [← reads_iff]
  by_cases hhere : ['.', '/'] <+: pattern
  · obtain ⟨cs, rfl⟩ := hhere
    show _ ↔ Reads cs pieces
    constructor
    · rintro (⟨cs', heq, hreads⟩ | ⟨hnot, -⟩)
      · obtain rfl : cs = cs' := (List.cons.inj (List.cons.inj heq).2).2
        exact hreads
      · exact absurd (List.prefix_append _ _) hnot
    · exact fun hreads => .inl ⟨cs, rfl, hreads⟩
  · have hdrop : dropHere pattern = pattern := by
      unfold dropHere
      split
      · next cs => exact absurd ⟨cs, rfl⟩ hhere
      · rfl
    rw [hdrop]
    constructor
    · rintro (⟨cs, rfl, -⟩ | ⟨-, hreads⟩)
      · exact absurd ⟨cs, rfl⟩ hhere
      · exact hreads
    · exact fun hreads => .inr ⟨hhere, hreads⟩

/-- **The meaning of a pattern.** It is read as pieces, and these match the text. -/
def Denotes (pattern text : String) : Prop :=
  ∃ pieces, ReadsPattern pattern.toList pieces ∧ Matches pieces text.toList

/-- The glob of a pattern matches what the pattern means. -/
theorem isMatch_ofPattern_iff {limit : Limit} {pattern : String} {g : Glob}
    (h : ofPattern limit pattern = .ok g) (text : String) :
    g.isMatch text = true ↔ Denotes pattern text := by
  have hpieces : piecesOf (dropHere pattern.toList) = g.pieces := by
    unfold ofPattern at h
    dsimp only at h
    split_ifs at h
    obtain rfl := Except.ok.inj h
    rfl
  rw [isMatch_iff]
  constructor
  · exact fun hmatch => ⟨g.pieces, readsPattern_iff.mpr hpieces, hmatch⟩
  · rintro ⟨pieces, hreads, hmatch⟩
    rwa [← hpieces, readsPattern_iff.mp hreads]

end Glob

end CondRegions
