import CondRegions.Span
import Mathlib.Data.List.Basic

/-!
# Bytes, boundaries and slices

Offsets count bytes, a text is a list of characters. The two meet at *boundaries*: the offsets at
which a character starts, and the end of the text. Between boundaries, slices behave like the parts
of a list that they are (`Text.slice_split`, `Text.slice_add`). `Text.Between` names such a part
with its offsets, and parts that meet are put together (`Text.Between.append`).

`Text.bytes` is the UTF-8 form of a text, and `Text.selectFrom` picks bytes out of a part of it by
their offsets. A part whose offsets are all picked, or all dropped, is kept or dropped as a whole
(`Text.selectFrom_eq_self`, `Text.selectFrom_eq_nil`), and parts are dealt with one after the other
(`Text.selectFrom_append`).
-/

namespace CondRegions.Text

/-! ### Boundaries -/

theorem byteLength_eq_zero {cs : List Char} : byteLength cs = 0 ↔ cs = [] := by
  constructor
  · intro h
    cases cs with
    | nil => rfl
    | cons c cs =>
      have hc := c.utf8Size_pos
      rw [byteLength_cons] at h
      omega
  · rintro rfl
    rfl

theorem byteLength_pos {cs : List Char} (h : cs ≠ []) : 0 < byteLength cs :=
  Nat.pos_of_ne_zero fun h0 => h (byteLength_eq_zero.mp h0)

/-- **Boundaries.** The offsets at which a text can be cut between two characters. -/
def IsBoundary (text : List Char) (p : Nat) : Prop :=
  ∃ pre post, text = pre ++ post ∧ byteLength pre = p

theorem isBoundary_zero (text : List Char) : IsBoundary text 0 :=
  ⟨[], text, rfl, rfl⟩

theorem isBoundary_byteLength (text : List Char) : IsBoundary text (byteLength text) :=
  ⟨text, [], (List.append_nil text).symm, rfl⟩

theorem IsBoundary.le {text : List Char} {p : Nat} (h : IsBoundary text p) :
    p ≤ byteLength text := by
  obtain ⟨pre, post, rfl, rfl⟩ := h
  rw [byteLength_append]
  omega

/-- A boundary of the second part of a text is a boundary of the text. -/
theorem IsBoundary.append_left {text : List Char} {p : Nat} (h : IsBoundary text p)
    (before : List Char) : IsBoundary (before ++ text) (byteLength before + p) := by
  obtain ⟨pre, post, rfl, rfl⟩ := h
  exact ⟨before ++ pre, post, by rw [List.append_assoc], byteLength_append before pre⟩

/-- A boundary of the first part of a text is a boundary of the text. -/
theorem IsBoundary.append_right {text : List Char} {p : Nat} (h : IsBoundary text p)
    (after : List Char) : IsBoundary (text ++ after) p := by
  obtain ⟨pre, post, rfl, rfl⟩ := h
  exact ⟨pre, post ++ after, by rw [List.append_assoc], rfl⟩

/-- A boundary behind the first part of a text is a boundary of the second part. -/
theorem IsBoundary.of_append {xs text : List Char} {p : Nat} (h : IsBoundary (xs ++ text) p)
    (hp : byteLength xs ≤ p) : IsBoundary text (p - byteLength xs) := by
  obtain ⟨pre, post, htext, rfl⟩ := h
  rcases List.append_eq_append_iff.mp htext with ⟨ys, rfl, rfl⟩ | ⟨ys, rfl, rfl⟩
  · exact ⟨ys, post, rfl, by rw [byteLength_append]; omega⟩
  · -- the cut lies inside the first part, so it is its end
    obtain rfl : ys = [] := by
      rw [byteLength_append] at hp
      exact byteLength_eq_zero.mp (by omega)
    exact ⟨[], text, rfl, by simp⟩

/-! ### Slices -/

@[simp] theorem dropBytes_zero (cs : List Char) : dropBytes 0 cs = cs := by
  cases cs <;> rfl

@[simp] theorem takeBytes_zero (cs : List Char) : takeBytes 0 cs = [] := by
  cases cs <;> rfl

theorem dropBytes_byteLength_append (xs ys : List Char) :
    dropBytes (byteLength xs) (xs ++ ys) = ys := by
  induction xs with
  | nil => exact dropBytes_zero ys
  | cons c cs ih =>
    -- a character has at least one byte, so the second equation of `dropBytes` applies
    obtain ⟨n, hn⟩ : ∃ n, c.utf8Size = n + 1 :=
      Nat.exists_eq_succ_of_ne_zero (Nat.ne_of_gt c.utf8Size_pos)
    have hlen : byteLength (c :: cs) = (n + byteLength cs) + 1 := by
      rw [byteLength_cons, hn]
      omega
    have hrest : n + byteLength cs + 1 - c.utf8Size = byteLength cs := by omega
    rw [hlen, List.cons_append, dropBytes, hrest, ih]

theorem takeBytes_byteLength_append (xs ys : List Char) :
    takeBytes (byteLength xs) (xs ++ ys) = xs := by
  induction xs with
  | nil => exact takeBytes_zero ys
  | cons c cs ih =>
    obtain ⟨n, hn⟩ : ∃ n, c.utf8Size = n + 1 :=
      Nat.exists_eq_succ_of_ne_zero (Nat.ne_of_gt c.utf8Size_pos)
    have hlen : byteLength (c :: cs) = (n + byteLength cs) + 1 := by
      rw [byteLength_cons, hn]
      omega
    have hrest : n + byteLength cs + 1 - c.utf8Size = byteLength cs := by omega
    rw [hlen, List.cons_append, takeBytes, hrest, ih]

/-- A slice is the part of the text that its ends cut out. -/
theorem slice_split (xs ys zs : List Char) :
    slice (xs ++ ys ++ zs) (byteLength xs) (byteLength xs + byteLength ys) = ys := by
  rw [slice, Nat.add_sub_cancel_left, List.append_assoc, dropBytes_byteLength_append,
    takeBytes_byteLength_append]

theorem slice_self (text : List Char) : slice text 0 (byteLength text) = text := by
  simpa using slice_split [] text []

/-- A slice between two boundaries has as many bytes as they are apart. -/
theorem byteLength_slice {text : List Char} {a b : Nat} (ha : IsBoundary text a)
    (hb : IsBoundary text b) (hab : a ≤ b) : byteLength (slice text a b) = b - a := by
  obtain ⟨xs, t, rfl, rfl⟩ := ha
  obtain ⟨ys, zs, rfl, hys⟩ := hb.of_append hab
  obtain rfl : b = byteLength xs + byteLength ys := by omega
  rw [← List.append_assoc, slice_split, Nat.add_sub_cancel_left]

/-- Slices that meet at a boundary make up one slice. -/
theorem slice_add {text : List Char} {a b c : Nat} (ha : IsBoundary text a)
    (hb : IsBoundary text b) (hc : IsBoundary text c) (hab : a ≤ b) (hbc : b ≤ c) :
    slice text a b ++ slice text b c = slice text a c := by
  obtain ⟨xs, t, rfl, rfl⟩ := ha
  obtain ⟨ys, t', rfl, hys⟩ := hb.of_append hab
  obtain ⟨zs, ws, rfl, hzs⟩ := (hc.of_append (Nat.le_trans hab hbc)).of_append
    (by omega : byteLength ys ≤ c - byteLength xs)
  -- the three cuts divide the text into four parts, and each slice is some of them
  have h1 := slice_split xs ys (zs ++ ws)
  have h2 := slice_split (xs ++ ys) zs ws
  have h3 := slice_split xs (ys ++ zs) ws
  simp only [byteLength_append, List.append_assoc] at h1 h2 h3
  obtain rfl : b = byteLength xs + byteLength ys := by omega
  obtain rfl : c = byteLength xs + byteLength ys + byteLength zs := by omega
  rw [h1, h2, ← h3, Nat.add_assoc]

/-! ### Parts between offsets -/

/-- **Parts of a text.** The characters `cs` are what stands in the text from offset `a` up to
offset `b`. -/
def Between (text : List Char) (a b : Nat) (cs : List Char) : Prop :=
  ∃ before after, text = before ++ cs ++ after ∧ byteLength before = a ∧ a + byteLength cs = b

theorem IsBoundary.between {text : List Char} {a : Nat} (h : IsBoundary text a) :
    Between text a a [] := by
  obtain ⟨before, after, rfl, rfl⟩ := h
  exact ⟨before, after, by rw [List.append_nil], rfl, rfl⟩

/-- What stands between two boundaries. -/
theorem IsBoundary.between_slice {text : List Char} {a b : Nat} (ha : IsBoundary text a)
    (hb : IsBoundary text b) (hab : a ≤ b) : Between text a b (slice text a b) := by
  obtain ⟨xs, t, rfl, rfl⟩ := ha
  obtain ⟨ys, zs, rfl, hys⟩ := hb.of_append hab
  obtain rfl : b = byteLength xs + byteLength ys := by omega
  rw [← List.append_assoc, slice_split]
  exact ⟨xs, zs, rfl, rfl, rfl⟩

namespace Between

variable {text cs ds : List Char} {a b c : Nat}

theorem slice_eq (h : Between text a b cs) : slice text a b = cs := by
  obtain ⟨before, after, rfl, rfl, rfl⟩ := h
  exact slice_split before cs after

theorem isBoundary_start (h : Between text a b cs) : IsBoundary text a := by
  obtain ⟨before, after, rfl, rfl, -⟩ := h
  exact ⟨before, cs ++ after, by rw [List.append_assoc], rfl⟩

theorem isBoundary_stop (h : Between text a b cs) : IsBoundary text b := by
  obtain ⟨before, after, rfl, rfl, rfl⟩ := h
  exact ⟨before ++ cs, after, rfl, byteLength_append before cs⟩

theorem le (h : Between text a b cs) : a ≤ b := by
  obtain ⟨-, -, -, -, rfl⟩ := h
  exact Nat.le_add_right _ _

theorem lt (h : Between text a b cs) (hne : cs ≠ []) : a < b := by
  obtain ⟨-, -, -, -, rfl⟩ := h
  have hpos := byteLength_pos hne
  omega

/-- **Parts that meet** make up one part. -/
theorem append (h : Between text a b cs) (h' : Between text b c ds) :
    Between text a c (cs ++ ds) := by
  obtain ⟨before, after, htext, rfl, rfl⟩ := h
  obtain ⟨before', after', htext', hbefore, rfl⟩ := h'
  -- the text is cut behind the first part in one way only
  obtain rfl : before' = before ++ cs := by
    rw [← byteLength_append] at hbefore
    rw [htext, List.append_assoc before'] at htext'
    rw [← takeBytes_byteLength_append before' (ds ++ after'), ← htext', hbefore,
      takeBytes_byteLength_append]
  refine ⟨before, after', ?_, rfl, ?_⟩
  · rw [htext', List.append_assoc before]
  · rw [byteLength_append, Nat.add_assoc]

end Between

/-! ### Bytes -/

/-- The UTF-8 form of a text. -/
def bytes (text : List Char) : List UInt8 :=
  text.flatMap String.utf8EncodeChar

@[simp] theorem bytes_nil : bytes [] = [] := rfl

@[simp] theorem bytes_append (xs ys : List Char) : bytes (xs ++ ys) = bytes xs ++ bytes ys :=
  List.flatMap_append

@[simp] theorem length_bytes (text : List Char) : (bytes text).length = byteLength text := by
  induction text with
  | nil => rfl
  | cons c cs ih =>
    rw [byteLength_cons, ← ih, bytes, List.flatMap_cons, List.length_append,
      String.length_utf8EncodeChar]
    rfl

/-- A text is determined by its bytes. -/
theorem bytes_injective {xs ys : List Char} (h : bytes xs = bytes ys) : xs = ys := by
  refine String.ofList_injective (String.toByteArray_inj.mp ?_)
  exact congrArg List.toByteArray h

/-- The bytes at the offsets that satisfy `keep`, the first byte having offset `offset`. -/
def selectFrom (keep : Nat → Bool) (offset : Nat) (bs : List UInt8) : List UInt8 :=
  ((bs.zipIdx offset).filter fun b => keep b.2).map Prod.fst

/-- **Selection.** The bytes of a text at the offsets that satisfy `keep`, in order. -/
def select (keep : Nat → Bool) (text : List Char) : List UInt8 :=
  selectFrom keep 0 (bytes text)

theorem selectFrom_append (keep : Nat → Bool) (offset : Nat) (xs ys : List UInt8) :
    selectFrom keep offset (xs ++ ys) =
      selectFrom keep offset xs ++ selectFrom keep (offset + xs.length) ys := by
  rw [selectFrom, List.zipIdx_append, List.filter_append, List.map_append]
  rfl

theorem selectFrom_congr {keep keep' : Nat → Bool} {offset : Nat} {bs : List UInt8}
    (h : ∀ p, offset ≤ p → p < offset + bs.length → keep p = keep' p) :
    selectFrom keep offset bs = selectFrom keep' offset bs := by
  rw [selectFrom, selectFrom]
  congr 1
  refine List.filter_congr fun b hb => ?_
  exact h b.2 (List.le_snd_of_mem_zipIdx hb) (List.snd_lt_add_of_mem_zipIdx hb)

theorem selectFrom_eq_self {keep : Nat → Bool} {offset : Nat} {bs : List UInt8}
    (h : ∀ p, offset ≤ p → p < offset + bs.length → keep p = true) :
    selectFrom keep offset bs = bs := by
  have hall : selectFrom keep offset bs = selectFrom (fun _ => true) offset bs := selectFrom_congr h
  rw [hall, selectFrom, List.filter_true, List.zipIdx_map_fst]

theorem selectFrom_eq_nil {keep : Nat → Bool} {offset : Nat} {bs : List UInt8}
    (h : ∀ p, offset ≤ p → p < offset + bs.length → keep p = false) :
    selectFrom keep offset bs = [] := by
  have hall : selectFrom keep offset bs = selectFrom (fun _ => false) offset bs :=
    selectFrom_congr h
  rw [hall, selectFrom, List.filter_false, List.map_nil]

/-! ### Bytes of slices -/

/-- The bytes between two offsets of a text that satisfy `keep`. -/
def selectSlice (keep : Nat → Bool) (text : List Char) (a b : Nat) : List UInt8 :=
  selectFrom keep a (bytes (slice text a b))

section SelectSlice

variable {keep keep' : Nat → Bool} {text : List Char} {a b c : Nat}

theorem select_eq_selectSlice (keep : Nat → Bool) (text : List Char) :
    select keep text = selectSlice keep text 0 (byteLength text) := by
  rw [selectSlice, slice_self, select]

theorem selectSlice_add (ha : IsBoundary text a) (hb : IsBoundary text b) (hc : IsBoundary text c)
    (hab : a ≤ b) (hbc : b ≤ c) :
    selectSlice keep text a c = selectSlice keep text a b ++ selectSlice keep text b c := by
  have hoff : a + (bytes (slice text a b)).length = b := by
    rw [length_bytes, byteLength_slice ha hb hab]
    omega
  rw [selectSlice, ← slice_add ha hb hc hab hbc, bytes_append, selectFrom_append, hoff]
  rfl

theorem selectSlice_congr (ha : IsBoundary text a) (hb : IsBoundary text b) (hab : a ≤ b)
    (h : ∀ p, a ≤ p → p < b → keep p = keep' p) :
    selectSlice keep text a b = selectSlice keep' text a b := by
  refine selectFrom_congr fun p hap hpb => h p hap ?_
  rw [length_bytes, byteLength_slice ha hb hab] at hpb
  omega

theorem selectSlice_eq_slice (ha : IsBoundary text a) (hb : IsBoundary text b) (hab : a ≤ b)
    (h : ∀ p, a ≤ p → p < b → keep p = true) :
    selectSlice keep text a b = bytes (slice text a b) := by
  refine selectFrom_eq_self fun p hap hpb => h p hap ?_
  rw [length_bytes, byteLength_slice ha hb hab] at hpb
  omega

theorem selectSlice_eq_nil (ha : IsBoundary text a) (hb : IsBoundary text b) (hab : a ≤ b)
    (h : ∀ p, a ≤ p → p < b → keep p = false) : selectSlice keep text a b = [] := by
  refine selectFrom_eq_nil fun p hap hpb => h p hap ?_
  rw [length_bytes, byteLength_slice ha hb hab] at hpb
  omega

end SelectSlice

end CondRegions.Text
