import CondRegions.Proofs.Condition.Composition
import CondRegions.Proofs.Condition.Printing
import CondRegions.Proofs.Pass.Noninterference

/-!
# Which definitions a condition can read

There are three notions of a name. The grammar lets names hold dollar signs (`Token.IsName`), a key
that is looked up may not (`Definitions.eligible`), and four names are literals before they are
anything else (`Token.keywords`). Together they say which keys are *readable*: those of identifier
shape, without a dollar sign, that are no literal (`Condition.IsReadable`).

* `Definitions.eligible_iff` — the keys that are looked up are the names without a dollar sign;
* `Condition.parse_name` — a name that is no literal is a condition on its own, of one identifier;
* `Condition.value_congr` — the value of a condition depends on nothing but the values of readable
  keys;
* `Condition.value_reads` — a readable key can be read, and any other key is invisible to all
  conditions.

A name with a dollar sign is accepted and has no value under any definitions.
-/

namespace CondRegions

/-! ### Keys and names -/

namespace Definitions

theorem isKeyStart_iff {c : Char} : isKeyStart c = true ↔ Token.isNameStart c = true ∧ c ≠ '$' := by
  -- the dollar sign is the only character on which the two tables differ
  by_cases hc : c = '$'
  · subst hc
    decide
  · simp [isKeyStart, Token.isNameStart, hc]

theorem isKeyPart_iff {c : Char} : isKeyPart c = true ↔ Token.isNamePart c = true ∧ c ≠ '$' := by
  by_cases hc : c = '$'
  · subst hc
    decide
  · simp [isKeyPart, Token.isNamePart, hc]

/-- **Keys that are looked up** are the names of the grammar without a dollar sign. -/
theorem eligible_iff {key : String} :
    eligible key = true ↔ Token.IsName key.toList ∧ '$' ∉ key.toList := by
  unfold eligible
  cases hkey : key.toList with
  | nil =>
    constructor
    · intro h
      cases h
    · rintro ⟨⟨c, part, hnil, -⟩, -⟩
      cases hnil
  | cons c cs =>
    simp only [Bool.and_eq_true, List.all_eq_true, isKeyStart_iff, isKeyPart_iff]
    constructor
    · -- no character is a dollar sign, neither the first one nor a later one
      rintro ⟨⟨hstart, hc⟩, hcs⟩
      refine ⟨⟨c, cs, rfl, hstart, fun d hd => (hcs d hd).1⟩, ?_⟩
      intro hmem
      rcases List.mem_cons.mp hmem with heq | hlater
      · exact hc heq.symm
      · exact (hcs '$' hlater).2 rfl
    · rintro ⟨⟨c', cs', heq, hstart, hpart⟩, hdollar⟩
      obtain ⟨rfl, rfl⟩ := List.cons.inj heq
      rw [List.mem_cons, not_or] at hdollar
      refine ⟨⟨hstart, Ne.symm hdollar.1⟩, fun d hd => ⟨hpart d hd, ?_⟩⟩
      rintro rfl
      exact hdollar.2 hd

theorem lookup_of_eligible {key : String} (h : eligible key = true) (d : Definitions) :
    d.lookup key = (d.get? key).getD .undefined := by
  unfold lookup
  rw [if_pos h]

/-- A name with a dollar sign has no value. -/
theorem lookup_of_dollar {name : String} (h : '$' ∈ name.toList) (d : Definitions) :
    d.lookup name = .undefined := by
  unfold lookup
  rw [if_neg]
  intro heligible
  exact (eligible_iff.mp heligible).2 h

end Definitions

/-! ### Conditions of one name -/

namespace Condition

open CondRegions.Parser

/-- **Readable keys**: those that are looked up and are no literals. -/
def IsReadable (key : String) : Prop :=
  Definitions.eligible key = true ∧ key ∉ Token.keywords.map Prod.fst

/-- **A name as a condition.** A name that is no literal parses as one identifier, which takes up
the text. -/
theorem parse_name {name : String} (hname : Token.IsName name.toList)
    (hfree : name ∉ Token.keywords.map Prod.fst) :
    parse name = .ok (.identifier ⟨0, Text.byteLength name.toList⟩ name) := by
  have hspells : Token.Spells (.identifier name) name.toList := by
    have h := Token.Spells.identifier hname (by rwa [String.ofList_toList])
    rwa [String.ofList_toList] at h
  -- the name is the whole text, without blanks around it
  have htext : name.toList = [] ++ name.toList ++ [] := (List.append_nil _).symm
  refine parse_operand htext .nil hspells.lexeme .nil ?_
  rw [Text.byteLength_nil, Nat.zero_add]
  rfl

/-- The value of a condition of one name is what is looked up for it. -/
theorem value_name {name : String} (hname : Token.IsName name.toList)
    (hfree : name ∉ Token.keywords.map Prod.fst) (d : Definitions) :
    value name d = .ok (d.lookup name) := by
  unfold value
  rw [parse_name hname hfree]
  rfl

/-! ### What the value of a condition depends on -/

/-- The names in the tree of a condition that are looked up are readable keys. -/
theorem isReadable_of_mem_names {text : String} {e : Expr Span} (h : parse text = .ok e)
    {name : String}
    (hname : name ∈ e.names) (heligible : Definitions.eligible name = true) : IsReadable name := by
  refine ⟨heligible, ?_⟩
  have hspells := spells_of_mem_names h hname
  -- of all the ways to spell a token only one gives an identifier, and it asks for what is wanted
  generalize ht : Token.identifier name = t at hspells
  generalize hcs : name.toList = cs at hspells
  cases hspells with
  | identifier _ hfree =>
    obtain rfl := Token.identifier.inj ht
    exact hfree
  | _ => cases ht

/-- **Dependence.** Definitions that agree on the readable keys give every condition the same
value. -/
theorem value_congr {d d' : Definitions} (h : ∀ key, IsReadable key → d.get? key = d'.get? key)
    (text : String) : value text d = value text d' := by
  unfold value
  -- what does not parse has the same error under all definitions
  cases hparse : parse text with
  | error error => rfl
  | ok e =>
    have heval : e.eval d = e.eval d' := by
      apply Expr.eval_congr
      intro name hname
      apply Definitions.lookup_congr
      intro heligible
      exact h name (isReadable_of_mem_names hparse hname heligible)
    simp only [Except.map, heval]

/-- **Which definitions a condition can read.** A readable key is a condition of one identifier, and
its value is that of the key, under all definitions. Of any other key no condition has any notion:
maps of definitions that differ in this key only, whether it is inserted, changed or removed, give
every condition the same value. Among these are the names with a dollar sign, which are accepted and
never have a value. -/
theorem value_reads (key : String) :
    (IsReadable key →
      parse key = .ok (.identifier ⟨0, Text.byteLength key.toList⟩ key) ∧
      ∀ d, value key d = .ok ((d.get? key).getD .undefined)) ∧
    (¬ IsReadable key → ∀ d d' : Definitions,
      (∀ other, other ≠ key → d.get? other = d'.get? other) →
      ∀ text, value text d = value text d') ∧
    (Token.IsName key.toList → '$' ∈ key.toList →
      ¬ IsReadable key ∧
      parse key = .ok (.identifier ⟨0, Text.byteLength key.toList⟩ key) ∧
      (∀ d, value key d = .ok .undefined) ∧
      ∀ (d : Definitions) (note : Span), (Expr.identifier note key).eval d = .undefined) := by
  refine ⟨?_, ?_, ?_⟩
  · -- a readable key is a name and no literal, so it is read and looked up
    rintro ⟨heligible, hfree⟩
    obtain ⟨hname, -⟩ := Definitions.eligible_iff.mp heligible
    refine ⟨parse_name hname hfree, fun d => ?_⟩
    rw [value_name hname hfree, Definitions.lookup_of_eligible heligible]
  · -- the two maps differ in no readable key
    intro hunreadable d d' hagree text
    apply value_congr
    intro other hother
    apply hagree
    rintro rfl
    exact hunreadable hother
  · intro hname hdollar
    -- no literal has a dollar sign
    have hfree : key ∉ Token.keywords.map Prod.fst := by
      intro hkeyword
      have hall : ∀ name ∈ Token.keywords.map Prod.fst, '$' ∉ name.toList := by decide
      exact hall key hkeyword hdollar
    refine ⟨?_, parse_name hname hfree, fun d => ?_, fun d note => ?_⟩
    · rintro ⟨heligible, -⟩
      exact (Definitions.eligible_iff.mp heligible).2 hdollar
    · rw [value_name hname hfree, Definitions.lookup_of_dollar hdollar]
    · exact Definitions.lookup_of_dollar hdollar d

/-- The theorem at a readable key, at a literal that is also a key, and at a key with a dollar
sign. -/
theorem value_reads_literal :
    let d : Definitions := FinMap.ofList [("true_", .string "x"), ("$a", .bool true)]
    value "true_" d = .ok (.string "x") ∧ value "$a" d = .ok .undefined ∧
    ∀ v text, value text (d.insert "true" v) = value text d := by
  intro d
  obtain ⟨hread, -, -⟩ := value_reads "true_"
  obtain ⟨-, hhidden, -⟩ := value_reads "true"
  obtain ⟨-, -, hdollar⟩ := value_reads "$a"
  refine ⟨?_, ?_, ?_⟩
  · exact (hread ⟨by decide, by decide⟩).2 d
  · have hname : Token.IsName "$a".toList :=
      ⟨'$', ['a'], rfl, rfl, List.forall_mem_singleton.mpr rfl⟩
    exact (hdollar hname (by decide)).2.2.1 d
  · intro v text
    refine hhidden (fun h => absurd h.2 (by decide)) _ _ (fun other hother => ?_) text
    exact FinMap.get?_insert_of_ne d v hother

end Condition

end CondRegions
