import CondRegions.EnvFile
import CondRegions.Proofs.Text.Search
import CondRegions.Proofs.Text.Trimming

/-!
# Writing env files

The first equals sign of a line cuts it in two, and the two sides have nothing to do with each
other: the left side names a key or none (`EnvFile.keyBefore?`), the right side is a value
(`EnvFile.assignment?_equals`).

A key of which nothing is taken for something else, an equals sign and any text in single quotes on
a line of its own are read back as they are. The lines may be indented and may begin with `export`,
lines that say nothing may stand between them, and a line may end in a line feed or a carriage
return and a line feed (`EnvFile.Writes`, `EnvFile.parse_written`).
-/

namespace CondRegions.EnvFile

/-! ### The two sides of an equals sign -/

/-- The key that the text in front of the equals sign names, if it is no comment and names any. -/
def keyBefore? (cs : List Char) : Option String :=
  let start := Text.trimStart cs
  let name := Text.trim (dropExport start)
  if start.head? == some '#' || name.isEmpty then none else some (String.ofList name)

theorem dropExport_append (rest : List Char) :
    dropExport ("export ".toList ++ rest) = Text.trimStart rest := by
  unfold dropExport
  rw [List.isPrefixOf?_eq_some_iff_append_eq.mpr rfl]

theorem dropExport_of_not_isPrefix {line : List Char} (h : ¬ "export ".toList <+: line) :
    dropExport line = line := by
  unfold dropExport
  split
  · next rest hrest => exact absurd ⟨rest, List.isPrefixOf?_eq_some_iff_append_eq.mp hrest⟩ h
  · rfl

theorem dropExport_sublist (line : List Char) : (dropExport line).Sublist line := by
  by_cases h : "export ".toList <+: line
  · obtain ⟨rest, rfl⟩ := h
    rw [dropExport_append]
    exact (List.dropWhile_sublist _).trans (List.sublist_append_right _ _)
  · rw [dropExport_of_not_isPrefix h]

/-- What follows an equals sign does not matter to an `export`. -/
theorem dropExport_equals (xs ys : List Char) :
    dropExport (xs ++ '=' :: ys) = dropExport xs ++ '=' :: ys := by
  by_cases h : "export ".toList <+: xs
  · obtain ⟨rest, rfl⟩ := h
    rw [List.append_assoc, dropExport_append, dropExport_append, Text.trimStart_visible (by decide)]
  · rw [dropExport_of_not_isPrefix h, dropExport_of_not_isPrefix]
    intro hexport
    -- an `export` ends before the equals sign, since there is none in it
    rcases Text.prefix_or_mem hexport with hin | hmem
    · exact h hin
    · exact absurd hmem (by decide)

/-- **The two sides.** The left side of the first equals sign gives the key, the right side the
value. -/
theorem assignment?_equals {cs : List Char} (h : '=' ∉ cs) (raw : List Char) :
    assignment? (cs ++ '=' :: raw) =
      (keyBefore? cs).map fun name => (name, String.ofList (value (Text.trim raw))) := by
  -- the line is trimmed on the far sides, so that the equals sign stays between the two
  have hline : Text.trim (cs ++ '=' :: raw) = Text.trimStart cs ++ '=' :: Text.trimEnd raw :=
    Text.trim_visible (by decide) cs raw
  have hempty : (Text.trimStart cs ++ '=' :: Text.trimEnd raw).isEmpty = false := by
    cases Text.trimStart cs <;> rfl
  have hhead : ((Text.trimStart cs ++ '=' :: Text.trimEnd raw).head? == some '#') =
      ((Text.trimStart cs).head? == some '#') := by
    cases Text.trimStart cs <;> rfl
  -- and it is still the first one when the `export` is gone
  have hequals : '=' ∉ dropExport (Text.trimStart cs) := by
    intro hmem
    exact h ((List.dropWhile_sublist _).mem ((dropExport_sublist _).mem hmem))
  unfold assignment? keyBefore?
  dsimp only
  rw [hline, hempty, hhead, dropExport_equals, Text.splitAtFirst_char hequals]
  dsimp only
  rw [Text.trim_of_trimEnd, Bool.false_or]
  cases (Text.trimStart cs).head? == some '#' with
  | true => rfl
  | false => cases (Text.trim (dropExport (Text.trimStart cs))).isEmpty <;> rfl

/-- White space at the end of a line does not matter. -/
theorem assignment?_append {space : List Char} (h : Text.IsSpace space) (line : List Char) :
    assignment? (line ++ space) = assignment? line := by
  unfold assignment?
  rw [Text.trim_append h]

/-! ### Files line by line -/

theorem parse_line {line : List Char} (h : '\n' ∉ line) :
    parse (String.ofList line) = (assignment? line).toList := by
  unfold parse Text.splitLines
  rw [String.toList_ofList, List.splitOn_eq_singleton h]
  cases hline : assignment? line <;> simp [hline]

theorem parse_line_append {line : List Char} (h : '\n' ∉ line) (rest : List Char) :
    parse (String.ofList (line ++ '\n' :: rest)) =
      (assignment? line).toList ++ parse (String.ofList rest) := by
  unfold parse Text.splitLines
  rw [String.toList_ofList, String.toList_ofList, List.splitOn_append_cons_self_of_not_mem h]
  cases hline : assignment? line <;> simp [hline]

/-! ### Written files -/

/-- White space within a line. -/
def IsMargin (cs : List Char) : Prop :=
  Text.IsSpace cs ∧ '\n' ∉ cs

/-- **Pairs that can be written.** Nothing of the key is taken for something else, and both parts
fit on a line. -/
structure IsWritable (pair : String × String) : Prop where
  nonempty : pair.1 ≠ ""
  trimmed : Text.trim pair.1.toList = pair.1.toList
  no_equals : '=' ∉ pair.1.toList
  no_hash : ¬ "#".toList <+: pair.1.toList
  no_export : ¬ "export ".toList <+: pair.1.toList
  key_one_line : '\n' ∉ pair.1.toList
  value_one_line : '\n' ∉ pair.2.toList

/-- A pair as it is written: the key, and the value in single quotes. -/
def quoted (pair : String × String) : List Char :=
  pair.1.toList ++ '=' :: '\'' :: pair.2.toList ++ ['\'']

/-- **Lines of a written file**, with the pairs that they write. -/
inductive Says : List Char → List (String × String) → Prop where
  | blank {margin : List Char} (h : IsMargin margin) : Says margin []
  | comment {margin text : List Char} (h : IsMargin margin) (htext : '\n' ∉ text) :
      Says (margin ++ '#' :: text) []
  | plain {margin : List Char} (h : IsMargin margin) (pair : String × String) :
      Says (margin ++ quoted pair) [pair]
  | exported {margin gap : List Char} (h : IsMargin margin) (hgap : IsMargin gap)
      (pair : String × String) : Says (margin ++ ("export ".toList ++ (gap ++ quoted pair))) [pair]

/-- **Written files**, with the pairs that they write, in order. The last line need not be ended. -/
inductive Writes : List Char → List (String × String) → Prop where
  | last {line : List Char} {pairs : List (String × String)} (h : Says line pairs) :
      Writes line pairs
  | line {line ending rest : List Char} {pairs later : List (String × String)} (h : Says line pairs)
      (hending : ending = ['\n'] ∨ ending = ['\r', '\n']) (hrest : Writes rest later) :
      Writes (line ++ ending ++ rest) (pairs ++ later)

section Written

variable {pair : String × String} {margin gap : List Char}

/-- The key of a pair that can be written begins with a visible character. -/
theorem IsWritable.trimStart_append (h : IsWritable pair) (hmargin : IsMargin margin) :
    Text.trimStart (margin ++ pair.1.toList) = pair.1.toList := by
  rw [Text.trimStart_append hmargin.1]
  have htrimmed := h.trimmed
  cases hkey : pair.1.toList with
  | nil => rfl
  | cons c cs =>
    rw [hkey] at htrimmed
    exact Text.trimStart_cons (Text.visible_of_trim htrimmed) cs

theorem IsWritable.isEmpty_eq_false (h : IsWritable pair) : pair.1.toList.isEmpty = false := by
  rw [List.isEmpty_eq_false_iff]
  intro hnil
  exact h.nonempty (String.toList_eq_nil_iff.mp hnil)

/-- A key that can be written is named as it is. -/
theorem IsWritable.keyBefore? (h : IsWritable pair) (hmargin : IsMargin margin) :
    keyBefore? (margin ++ pair.1.toList) = some pair.1 := by
  have hhash : (pair.1.toList.head? == some '#') = false := by
    rw [beq_eq_false_iff_ne]
    intro hhead
    obtain ⟨cs, hcs⟩ := List.head?_eq_some_iff.mp hhead
    exact h.no_hash ⟨cs, hcs.symm⟩
  unfold EnvFile.keyBefore?
  dsimp only
  rw [h.trimStart_append hmargin, dropExport_of_not_isPrefix h.no_export, h.trimmed, hhash,
    h.isEmpty_eq_false, String.ofList_toList]
  rfl

/-- And so it is behind an `export`. -/
theorem IsWritable.keyBefore?_exported (h : IsWritable pair) (hmargin : IsMargin margin)
    (hgap : IsMargin gap) :
    EnvFile.keyBefore? (margin ++ ("export ".toList ++ (gap ++ pair.1.toList))) = some pair.1 := by
  have hstart : Text.trimStart (margin ++ ("export ".toList ++ (gap ++ pair.1.toList))) =
      "export ".toList ++ (gap ++ pair.1.toList) := by
    rw [Text.trimStart_append hmargin.1]
    exact Text.trimStart_cons (by decide) _
  unfold EnvFile.keyBefore?
  dsimp only
  rw [hstart, dropExport_append, h.trimStart_append hgap, h.trimmed, h.isEmpty_eq_false,
    String.ofList_toList]
  rfl

/-- What stands in single quotes is the value, whatever it is. -/
theorem value_quoted (cs : List Char) : value (Text.trim ('\'' :: cs ++ ['\''])) = cs := by
  have htrim : Text.trim ('\'' :: cs ++ ['\'']) = '\'' :: cs ++ ['\''] :=
    Text.trim_visible (by decide) ('\'' :: cs) []
  have hdouble : isQuoted '"' ('\'' :: cs ++ ['\'']) = false := by simp [isQuoted]
  have hsingle : isQuoted '\'' ('\'' :: cs ++ ['\'']) = true := by
    unfold isQuoted
    rw [List.getLast?_concat]
    simp
  unfold value
  rw [htrim, hdouble, hsingle]
  simp [stripEnds]

/-- A pair that is written behind a text that names its key is what the line assigns. -/
theorem assignment?_quoted {lead : List Char} (hequals : '=' ∉ lead ++ pair.1.toList)
    (hkey : EnvFile.keyBefore? (lead ++ pair.1.toList) = some pair.1) :
    assignment? (lead ++ quoted pair) = some pair := by
  have hline : lead ++ quoted pair =
      lead ++ pair.1.toList ++ '=' :: ('\'' :: pair.2.toList ++ ['\'']) := by
    unfold quoted
    simp only [List.append_assoc, List.cons_append]
  rw [hline, assignment?_equals hequals, hkey, value_quoted, String.ofList_toList]
  rfl

theorem IsMargin.no_equals (h : IsMargin margin) : '=' ∉ margin :=
  h.1.not_mem (by decide)

/-- **One line of a written file.** It assigns what it writes. -/
theorem Says.assignment? {line : List Char} {pairs : List (String × String)} (h : Says line pairs)
    (hpairs : ∀ pair ∈ pairs, IsWritable pair) : (EnvFile.assignment? line).toList = pairs := by
  cases h with
  | blank h =>
    unfold EnvFile.assignment?
    rw [Text.trim_eq_nil_iff.mpr h.1]
    rfl
  | @comment margin text h htext =>
    -- the number sign is the first character that is left
    have hline : Text.trim (margin ++ '#' :: text) = '#' :: Text.trimEnd text := by
      rw [Text.trim_visible (by decide), Text.trimStart_eq_nil_iff.mpr h.1, List.nil_append]
    unfold EnvFile.assignment?
    rw [hline]
    rfl
  | plain h pair =>
    have hwritable := List.forall_mem_singleton.mp hpairs
    have hequals : '=' ∉ _ ++ pair.1.toList :=
      List.not_mem_append h.no_equals hwritable.no_equals
    rw [assignment?_quoted hequals (hwritable.keyBefore? h)]
    rfl
  | @exported margin gap h hgap pair =>
    -- as before, with the `export` and the gap behind it in front of the key
    have hwritable := List.forall_mem_singleton.mp hpairs
    have hlead : margin ++ ("export ".toList ++ (gap ++ quoted pair)) =
        margin ++ "export ".toList ++ gap ++ quoted pair := by
      simp only [List.append_assoc]
    have hkey : EnvFile.keyBefore? (margin ++ "export ".toList ++ gap ++ pair.1.toList) =
        some pair.1 := by
      simpa only [List.append_assoc] using hwritable.keyBefore?_exported h hgap
    have hequals : '=' ∉ margin ++ "export ".toList ++ gap ++ pair.1.toList :=
      List.not_mem_append (List.not_mem_append (List.not_mem_append h.no_equals (by decide))
        hgap.no_equals) hwritable.no_equals
    rw [hlead, assignment?_quoted hequals hkey]
    rfl

theorem quoted_one_line (h : IsWritable pair) : '\n' ∉ quoted pair := by
  unfold quoted
  simp [h.key_one_line, h.value_one_line]

/-- A line of a written file is one line. -/
theorem Says.one_line {line : List Char} {pairs : List (String × String)} (h : Says line pairs)
    (hpairs : ∀ pair ∈ pairs, IsWritable pair) : '\n' ∉ line := by
  cases h with
  | blank h => exact h.2
  | comment h htext => exact List.not_mem_append h.2 (by simpa using htext)
  | plain h pair =>
    exact List.not_mem_append h.2 (quoted_one_line (List.forall_mem_singleton.mp hpairs))
  | exported h hgap pair =>
    exact List.not_mem_append h.2 (List.not_mem_append (by decide)
      (List.not_mem_append hgap.2 (quoted_one_line (List.forall_mem_singleton.mp hpairs))))

/-- A line of a written file and how it ends. -/
theorem Says.parse_append {line ending : List Char} {pairs : List (String × String)}
    (h : Says line pairs) (hpairs : ∀ pair ∈ pairs, IsWritable pair)
    (hending : ending = ['\n'] ∨ ending = ['\r', '\n']) (rest : List Char) :
    parse (String.ofList (line ++ ending ++ rest)) = pairs ++ parse (String.ofList rest) := by
  have hline := h.one_line hpairs
  rcases hending with rfl | rfl
  · rw [List.append_assoc, List.singleton_append, parse_line_append hline, h.assignment? hpairs]
  · -- the carriage return is white space at the end of the line
    have hreturn : '\n' ∉ line ++ ['\r'] := List.not_mem_append hline (by decide)
    have hspace : Text.IsSpace ['\r'] := List.forall_mem_singleton.mpr rfl
    have hcut : line ++ ['\r', '\n'] ++ rest = line ++ ['\r'] ++ '\n' :: rest := by
      simp only [List.append_assoc, List.cons_append, List.nil_append]
    rw [hcut, parse_line_append hreturn, assignment?_append hspace, h.assignment? hpairs]

end Written

/-- **Round trip.** A written file is read back as the pairs that it writes, in order and as they
are. -/
theorem parse_written (text : List Char) (pairs : List (String × String))
    (hpairs : ∀ pair ∈ pairs, IsWritable pair) (h : Writes text pairs) :
    parse (String.ofList text) = pairs := by
  induction h with
  | last h => rw [parse_line (h.one_line hpairs), h.assignment? hpairs]
  | line h hending hrest ih =>
    obtain ⟨hfirst, hlater⟩ := List.forall_mem_append.mp hpairs
    rw [h.parse_append hfirst hending, ih hlater]

/-- The theorem at a file with a comment, both line ends, an `export`, a key with a blank in it, and
values in which there are quotes, a backslash, an equals sign and what looks like a comment. -/
theorem parse_written_mixed :
    let text := " # x='y'\r\nexport  A b='it''s \\n #=\" '\n\n\tc=''' # '"
    let pairs := [("A b", "it''s \\n #=\" "), ("c", "'' # ")]
    (∀ pair ∈ pairs, IsWritable pair) ∧ Writes text.toList pairs ∧ parse text = pairs := by
  intro text pairs
  have hmargin : ∀ {cs : List Char}, (cs.all fun c => isWhiteSpace c && c != '\n') = true →
      IsMargin cs := by
    intro cs hall
    simp only [List.all_eq_true, Bool.and_eq_true, bne_iff_ne] at hall
    exact ⟨fun c hc => (hall c hc).1, fun hmem => (hall _ hmem).2 rfl⟩
  have hpairs : ∀ pair ∈ pairs, IsWritable pair := by
    simp only [pairs, List.forall_mem_cons]
    refine ⟨⟨?_, ?_, ?_, ?_, ?_, ?_, ?_⟩, ⟨?_, ?_, ?_, ?_, ?_, ?_, ?_⟩, nofun⟩ <;> decide
  have htext : text.toList = [' '] ++ '#' :: " x='y'".toList ++ ['\r', '\n'] ++
      ([] ++ ("export ".toList ++ ([' '] ++ quoted ("A b", "it''s \\n #=\" "))) ++ ['\n'] ++
        ([] ++ ['\n'] ++ (['\t'] ++ quoted ("c", "'' # ")))) := by
    decide +kernel
  have hwrites : Writes text.toList pairs := by
    rw [htext]
    exact .line (.comment (hmargin rfl) (by decide)) (.inr rfl)
      (.line (.exported (hmargin rfl) (hmargin rfl) _) (.inl rfl)
        (.line (.blank (hmargin rfl)) (.inl rfl) (.last (.plain (hmargin rfl) _))))
  refine ⟨hpairs, hwrites, ?_⟩
  have hparse := parse_written text.toList pairs hpairs hwrites
  rwa [String.ofList_toList] at hparse

end CondRegions.EnvFile
