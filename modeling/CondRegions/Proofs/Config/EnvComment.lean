import CondRegions.Proofs.Config.EnvFile

/-!
# Comments behind the values of an env file

Behind a value without quotes, a blank and a number sign start a comment, which is cut off
(`EnvFile.uncommented`). Two things come before that. White space is trimmed, so behind an empty
value the comment loses its blank and becomes the value. And quotes are looked for at both ends of
all that stands behind the equals sign, a comment included; so a value in quotes with a comment
behind it is taken for one without quotes, and keeps what is left of them.

What a comment does to any other value is nothing: it is cut off where it begins or, if the value
already has what looks like a comment, together with that (`EnvFile.uncommented_comment`). So a
comment leaves the assignment as it is exactly if the value is neither empty nor quoted
(`EnvFile.parse_comment_iff`). In the other direction, characters are counted: unquoting loses two
quotes and no number sign, and cutting off a comment loses no quote or at least one number sign
(`EnvFile.uncommented_ne_of_isQuoted`).
-/

namespace CondRegions.EnvFile

/-- A value without quotes, a comment cut off. -/
def uncommented (raw : List Char) : List Char :=
  match Text.splitAtFirst " #".toList raw with
  | some (before, _) => Text.trimEnd before
  | none => raw

/-- **Plain values** are neither empty nor quoted. -/
structure IsPlain (raw : List Char) : Prop where
  nonempty : raw ≠ []
  not_double : isQuoted '"' raw = false
  not_single : isQuoted '\'' raw = false

theorem value_of_not_isQuoted {raw : List Char} (hdouble : isQuoted '"' raw = false)
    (hsingle : isQuoted '\'' raw = false) : value raw = uncommented raw := by
  unfold value
  rw [hdouble, hsingle]
  rfl

/-! ### Cutting off a comment -/

/-- **A comment is cut off.** White space in front of it goes with it. -/
theorem uncommented_comment {raw space : List Char} (htrimmed : Text.trimEnd raw = raw)
    (hspace : Text.IsSpace space) (comment : List Char) :
    uncommented (raw ++ space ++ [' '] ++ '#' :: comment) = uncommented raw := by
  unfold uncommented
  cases hraw : Text.splitAtFirst " #".toList raw with
  | some found =>
    -- the value has what looks like a comment, and both are cut off there
    have hcut : raw ++ space ++ [' '] ++ '#' :: comment =
        raw ++ (space ++ ' ' :: '#' :: comment) := by
      simp only [List.append_assoc, List.singleton_append]
    rw [hcut, Text.splitAtFirst_append hraw]
  | none =>
    have hcut : raw ++ space ++ [' '] ++ '#' :: comment =
        raw ++ space ++ " #".toList ++ comment := by
      simp
    have hnot : ¬ " #".toList <:+: raw ++ space ++ " #".toList.dropLast := by
      intro hfound
      have hhash : '#' ∉ space ++ [' '] :=
        List.not_mem_append (hspace.not_mem (by decide)) (by decide)
      rw [List.append_assoc] at hfound
      have hoccurs : [' '] ++ ['#'] <:+: raw := Text.infix_of_append hhash hfound
      exact Text.splitAtFirst_eq_none_iff.mp hraw hoccurs
    rw [hcut, Text.splitAtFirst_of_not_infix hnot]
    dsimp only
    rw [Text.trimEnd_append hspace, htrimmed]

/-! ### Comments and quotes -/

/-- What ends in a comment without quotes is not quoted. -/
theorem isQuoted_eq_false {quote : Char} {cs comment : List Char} (hhash : quote ≠ '#')
    (h : quote ∉ comment) : isQuoted quote (cs ++ '#' :: comment) = false := by
  have hlast : (cs ++ '#' :: comment).getLast? ≠ some quote := by
    intro hlast
    rw [List.getLast?_append_cons] at hlast
    rcases List.mem_cons.mp (List.mem_of_getLast? hlast) with heq | hmem
    · exact hhash heq
    · exact h hmem
  unfold isQuoted
  rw [beq_eq_false_iff_ne.mpr hlast, Bool.and_false]

theorem exists_inner_of_isQuoted {quote : Char} {raw : List Char} (h : isQuoted quote raw = true) :
    ∃ inner, raw = quote :: inner ++ [quote] ∧ stripEnds raw = inner := by
  simp only [isQuoted, Bool.and_eq_true, decide_eq_true_eq, beq_iff_eq] at h
  obtain ⟨⟨hlength, hhead⟩, hlast⟩ := h
  obtain ⟨tail, rfl⟩ := List.head?_eq_some_iff.mp hhead
  rcases List.eq_nil_or_concat' tail with rfl | ⟨inner, last, rfl⟩
  · exact absurd hlength (by simp)
  · rw [← List.cons_append, List.getLast?_concat] at hlast
    obtain rfl := Option.some.inj hlast
    refine ⟨inner, rfl, ?_⟩
    simp [stripEnds]

/-- Only backslashes and the letter behind them become line feeds. -/
theorem count_unescapeBreaks {c : Char} (h : c ∉ ['\\', 'n', '\n']) (cs : List Char) :
    (unescapeBreaks cs).count c = cs.count c := by
  simp only [List.mem_cons, List.not_mem_nil, or_false, not_or] at h
  obtain ⟨hslash, hletter, hbreak⟩ := h
  fun_induction unescapeBreaks cs with
  | case1 cs ih =>
    rw [List.count_cons_of_ne (Ne.symm hbreak), List.count_cons_of_ne (Ne.symm hslash),
      List.count_cons_of_ne (Ne.symm hletter), ih]
  | case2 d cs _ ih => rw [List.count_cons, List.count_cons, ih]
  | case3 => rfl

/-- **Quotes do not survive a comment.** What is left of a quoted value when it is taken for one
without quotes is not what stands in the quotes. -/
theorem uncommented_ne_of_isQuoted {quote : Char} (hquote : quote = '"' ∨ quote = '\'')
    {raw : List Char} (h : isQuoted quote raw = true) {inner : List Char}
    (hinner : ∀ c ∈ ['#', quote], inner.count c = (stripEnds raw).count c) :
    uncommented raw ≠ inner := by
  obtain ⟨body, hraw, hbody⟩ := exists_inner_of_isQuoted h
  rw [hbody] at hinner
  have hne : quote ≠ '#' := by rcases hquote with rfl | rfl <;> decide
  intro heq
  unfold uncommented at heq
  split at heq
  · next before rest hsplit =>
    -- something is cut off, and at least the number sign that it begins with is lost
    obtain ⟨hcut, -⟩ := Text.splitAtFirst_eq_some_iff.mp hsplit
    obtain ⟨space, hbefore, -⟩ := Text.trimEnd_cases before
    have htrimmed : (Text.trimEnd before).count '#' ≤ before.count '#' := by
      conv_rhs => rw [hbefore]
      rw [List.count_append]
      exact Nat.le_add_right _ _
    have hlost : raw.count '#' = before.count '#' + 1 + rest.count '#' := by
      rw [hcut, List.count_append, List.count_append]
      rfl
    have hkept : raw.count '#' = body.count '#' := by
      rw [hraw, List.count_append, List.count_cons_of_ne hne, List.count_singleton]
      simp [hne]
    have hsame := hinner '#' List.mem_cons_self
    rw [heq] at htrimmed
    omega
  · -- nothing is cut off, and the quotes stay
    have hkept : raw.count quote = body.count quote + 2 := by
      rw [hraw, List.count_append, List.count_cons_self, List.count_singleton_self]
    have hsame := hinner quote (List.mem_cons_of_mem _ (List.mem_singleton_self quote))
    rw [heq] at hkept
    omega

/-- A value that is not plain is not what is left of it when it is taken for one without quotes. -/
theorem uncommented_ne_value {raw : List Char} (hne : raw ≠ []) (h : ¬ IsPlain raw) :
    uncommented raw ≠ value raw := by
  unfold value
  by_cases hdouble : isQuoted '"' raw = true
  · -- turning backslashes into line feeds changes the number of neither character
    rw [if_pos hdouble]
    refine uncommented_ne_of_isQuoted (.inl rfl) hdouble ?_
    intro c hc
    refine count_unescapeBreaks ?_ _
    rcases List.mem_cons.mp hc with rfl | hc
    · decide
    · rw [List.mem_singleton.mp hc]
      decide
  · by_cases hsingle : isQuoted '\'' raw = true
    · rw [if_neg hdouble, if_pos hsingle]
      exact uncommented_ne_of_isQuoted (.inr rfl) hsingle fun _ _ => rfl
    · exact absurd ⟨hne, Bool.eq_false_iff.mpr hdouble, Bool.eq_false_iff.mpr hsingle⟩ h

/-! ### Values with a comment behind them -/

section Comment

variable {raw comment : List Char}

theorem not_mem_trimEnd {c : Char} (h : c ∉ comment) : c ∉ Text.trimEnd comment := by
  obtain ⟨space, hcomment, -⟩ := Text.trimEnd_cases comment
  intro hmem
  apply h
  rw [hcomment]
  exact List.mem_append_left space hmem

/-- A comment behind an empty value becomes the value, or some of it does. -/
theorem value_comment_of_nil (hdouble : '"' ∉ comment) (hsingle : '\'' ∉ comment)
    (h : Text.trim raw = []) : value (Text.trim (raw ++ [' '] ++ '#' :: comment)) ≠ [] := by
  have hspace : Text.IsSpace (raw ++ [' ']) :=
    (Text.trim_eq_nil_iff.mp h).append (List.forall_mem_singleton.mpr rfl)
  rw [Text.trim_visible (by decide), Text.trimStart_eq_nil_iff.mpr hspace, value_of_not_isQuoted
    (isQuoted_eq_false (by decide) (not_mem_trimEnd hdouble))
    (isQuoted_eq_false (by decide) (not_mem_trimEnd hsingle))]
  unfold uncommented
  split
  · next before rest hsplit =>
    -- the number sign stands in front of anything that is cut off
    obtain ⟨hcut, -⟩ := Text.splitAtFirst_eq_some_iff.mp hsplit
    cases before with
    | nil => exact absurd (List.cons.inj hcut).1 (by decide)
    | cons c before =>
      obtain ⟨rfl, -⟩ := List.cons.inj hcut
      obtain ⟨more, hmore⟩ := Text.trimEnd_cons (by decide : isWhiteSpace '#' = false) before
      rw [hmore]
      exact List.cons_ne_nil _ _
  · exact List.cons_ne_nil _ _

/-- Any other value is then taken for one without quotes, and the comment is cut off. -/
theorem value_comment (hdouble : '"' ∉ comment) (hsingle : '\'' ∉ comment)
    (h : Text.trim raw ≠ []) :
    value (Text.trim (raw ++ [' '] ++ '#' :: comment)) = uncommented (Text.trim raw) := by
  have hstart : Text.trimStart raw ≠ [] := by
    intro hnil
    exact h (Text.trim_eq_nil_iff.mpr (Text.trimStart_eq_nil_iff.mp hnil))
  have htrimmed : Text.trimEnd (Text.trim raw) = Text.trim raw :=
    List.rdropWhile_idempotent isWhiteSpace (Text.trimStart raw)
  -- the white space that is trimmed at the end of the value now stands before the comment
  obtain ⟨space, hraw, hspace, -⟩ := Text.trimEnd_cases (Text.trimStart raw)
  have htrim : Text.trim (raw ++ [' '] ++ '#' :: comment) =
      Text.trim raw ++ space ++ [' '] ++ '#' :: Text.trimEnd comment := by
    calc Text.trim (raw ++ [' '] ++ '#' :: comment)
        = Text.trimStart (raw ++ [' ']) ++ '#' :: Text.trimEnd comment :=
          Text.trim_visible (by decide) _ _
      _ = Text.trimStart raw ++ [' '] ++ '#' :: Text.trimEnd comment := by
          rw [Text.trimStart_append_of_ne_nil hstart]
      _ = Text.trim raw ++ space ++ [' '] ++ '#' :: Text.trimEnd comment := by
          rw [hraw]
          rfl
  calc value (Text.trim (raw ++ [' '] ++ '#' :: comment))
      = uncommented (Text.trim raw ++ space ++ [' '] ++ '#' :: Text.trimEnd comment) := by
        rw [htrim]
        exact value_of_not_isQuoted (isQuoted_eq_false (by decide) (not_mem_trimEnd hdouble))
          (isQuoted_eq_false (by decide) (not_mem_trimEnd hsingle))
    _ = uncommented (Text.trim raw) := uncommented_comment htrimmed hspace _

/-- **Comments and values.** A comment leaves a value as it is exactly if the value is plain. -/
theorem value_comment_iff (hdouble : '"' ∉ comment) (hsingle : '\'' ∉ comment) :
    value (Text.trim (raw ++ [' '] ++ '#' :: comment)) = value (Text.trim raw) ↔
      IsPlain (Text.trim raw) := by
  by_cases hnil : Text.trim raw = []
  · rw [hnil]
    constructor
    · intro h
      exact absurd h (value_comment_of_nil hdouble hsingle hnil)
    · intro h
      exact absurd rfl h.nonempty
  · rw [value_comment hdouble hsingle hnil]
    constructor
    · intro h
      by_contra hplain
      exact uncommented_ne_value hnil hplain h
    · intro h
      exact (value_of_not_isQuoted h.not_double h.not_single).symm

end Comment

/-- **Trailing comments.** Let a line assign a value to a key, and let a comment without quotes be
put behind it. Then the line still assigns a value to the same key, and the value stays as it is
exactly if it is plain: if what stands behind the equals sign is neither empty nor quoted. -/
theorem parse_comment_iff (key raw comment : List Char) (pair : String × String) (hkey : '=' ∉ key)
    (hline : '\n' ∉ key ++ '=' :: raw) (hbreak : '\n' ∉ comment) (hdouble : '"' ∉ comment)
    (hsingle : '\'' ∉ comment) (h : parse (String.ofList (key ++ '=' :: raw)) = [pair]) :
    let commented := parse (String.ofList (key ++ '=' :: raw ++ " #".toList ++ comment))
    (∃ text, commented = [(pair.1, text)]) ∧ (commented = [pair] ↔ IsPlain (Text.trim raw)) := by
  intro commented
  have hcommented : commented =
      (assignment? (key ++ '=' :: (raw ++ [' '] ++ '#' :: comment))).toList := by
    have hcut : key ++ '=' :: raw ++ " #".toList ++ comment =
        key ++ '=' :: (raw ++ [' '] ++ '#' :: comment) := by simp
    have hone : '\n' ∉ key ++ '=' :: raw ++ " #".toList ++ comment :=
      List.not_mem_append (List.not_mem_append hline (by decide)) hbreak
    rw [← hcut]
    exact parse_line hone
  -- both lines have the same key, which the first one is known to have
  rw [parse_line hline, assignment?_equals hkey] at h
  rw [hcommented, assignment?_equals hkey]
  cases hname : keyBefore? key with
  | none =>
    rw [hname] at h
    cases h
  | some name =>
    rw [hname] at h
    obtain rfl : (name, String.ofList (value (Text.trim raw))) = pair := List.singleton_inj.mp h
    refine ⟨⟨_, rfl⟩, ?_⟩
    rw [← value_comment_iff hdouble hsingle]
    simp [String.ofList_inj]

/-- The theorem at an exported key and a value with a quote at one end and what looks like a
comment. -/
theorem parse_comment_iff_plain :
    parse "export A = 'x # y " = [("A", "'x")] ∧
    parse "export A = 'x # y  # z=1" = [("A", "'x")] := by
  have hparse : parse "export A = 'x # y " = [("A", "'x")] := by decide +kernel
  have hplain : IsPlain (Text.trim " 'x # y ".toList) := ⟨by decide, by decide, by decide⟩
  obtain ⟨-, hiff⟩ := parse_comment_iff "export A ".toList " 'x # y ".toList " z=1".toList
    ("A", "'x") (by decide) (by decide) (by decide) (by decide) (by decide) hparse
  exact ⟨hparse, hiff.mpr hplain⟩

/-- A quoted value keeps its quotes before a comment, and an empty value becomes the comment. -/
theorem parse_comment_quoted :
    parse "A='x'" = [("A", "x")] ∧ parse "A='x' # c" = [("A", "'x'")] ∧
    parse "A=\"x # y\"" = [("A", "x # y")] ∧ parse "A=\"x # y\" # c" = [("A", "\"x")] ∧
    parse "A=" = [("A", "")] ∧ parse "A= # c" = [("A", "# c")] := by
  decide +kernel

end CondRegions.EnvFile
