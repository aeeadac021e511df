/-!
# Finite maps

A finite map is a list of pairs in which every key stands once. It is read through `FinMap.get?`:

* `get?_eq_some_iff` — a key has the value that it stands with;
* `get?_insert` — inserting changes the value of one key;
* `get?_insertAll` — of several insertions the last one counts;
* `get?_merge` — of two layers the top one counts, where it has a value.
-/

namespace CondRegions

/-- A finite map from keys to values. -/
structure FinMap (κ ν : Type) where
  entries : List (κ × ν)
  nodup : (entries.map Prod.fst).Nodup

namespace FinMap

variable {κ ν : Type}

/-- The map without keys. -/
def empty : FinMap κ ν := ⟨[], List.nodup_nil⟩

instance : Inhabited (FinMap κ ν) := ⟨empty⟩

/-- The number of keys. -/
def size (d : FinMap κ ν) : Nat :=
  d.entries.length

/-- Whether there are no keys. -/
def isEmpty (d : FinMap κ ν) : Bool :=
  d.entries.isEmpty

variable [BEq κ]

/-- The value of a key. -/
def get? (d : FinMap κ ν) (key : κ) : Option ν :=
  d.entries.lookup key

@[simp]
theorem get?_empty (key : κ) : (empty : FinMap κ ν).get? key = none := rfl

variable [LawfulBEq κ]

/-- Sets the value of a key. -/
def insert (d : FinMap κ ν) (key : κ) (value : ν) : FinMap κ ν where
  entries := (key, value) :: d.entries.filter (fun e => e.1 != key)
  nodup := by
    refine List.nodup_cons.2 ⟨?_, d.nodup.sublist (List.filter_sublist.map _)⟩
    simp [List.mem_map, List.mem_filter]

/-- Sets the values of several keys, in order. -/
def insertAll (d : FinMap κ ν) (pairs : List (κ × ν)) : FinMap κ ν :=
  pairs.foldl (fun d (key, value) => d.insert key value) d

/-- The map given by a list of pairs; of two pairs with one key the later counts. -/
def ofList (pairs : List (κ × ν)) : FinMap κ ν :=
  empty.insertAll pairs

/-- **Layering.** The entries of `top` laid on top of those of `d`. -/
def merge (d top : FinMap κ ν) : FinMap κ ν :=
  d.insertAll top.entries

/-! ### The view through `get?` -/

private theorem lookup_eq_some_of_mem {entries : List (κ × ν)}
    (h : (entries.map Prod.fst).Nodup) {key : κ} {value : ν} (hm : (key, value) ∈ entries) :
    entries.lookup key = some value := by
  induction entries with
  | nil => cases hm
  | cons e es ih =>
    obtain ⟨k, v⟩ := e
    obtain ⟨habsent, hrest⟩ := List.nodup_cons.1 h
    rcases List.mem_cons.1 hm with heq | hlater
    · cases heq
      simp
    · have hne : key ≠ k := by
        rintro rfl
        exact habsent (List.mem_map.2 ⟨(key, value), hlater, rfl⟩)
      have hb : (key == k) = false := by simpa using hne
      rw [List.lookup_cons, hb]
      exact ih hrest hlater

/-- A key has the value that it stands with, and no other. -/
theorem get?_eq_some_iff (d : FinMap κ ν) (key : κ) (value : ν) :
    d.get? key = some value ↔ (key, value) ∈ d.entries := by
  refine ⟨fun h => ?_, lookup_eq_some_of_mem d.nodup⟩
  obtain ⟨before, later, heq, _⟩ := List.lookup_eq_some_iff.1 h
  simp [heq]

private theorem lookup_filter_ne (entries : List (κ × ν)) {key other : κ} (h : other ≠ key) :
    (entries.filter (fun e => e.1 != key)).lookup other = entries.lookup other := by
  induction entries with
  | nil => rfl
  | cons e es ih =>
    obtain ⟨k, v⟩ := e
    by_cases hk : k = key
    · subst hk
      have : (other == k) = false := by simpa using h
      simp [List.lookup_cons, this, ih]
    · by_cases ho : other = k
      · subst ho
        simp [hk]
      · have : (other == k) = false := by simpa using ho
        simp [hk, List.lookup_cons, this, ih]

/-- The key inserted has the value inserted. -/
@[simp]
theorem get?_insert_self (d : FinMap κ ν) (key : κ) (value : ν) :
    (d.insert key value).get? key = some value := by
  simp [get?, insert]

/-- Inserting changes the value of no other key. -/
theorem get?_insert_of_ne (d : FinMap κ ν) (value : ν) {key other : κ} (h : other ≠ key) :
    (d.insert key value).get? other = d.get? other := by
  have hb : (other == key) = false := by simpa using h
  simp [get?, insert, List.lookup_cons, hb, lookup_filter_ne _ h]

/-- Inserting changes the value of the key inserted and of no other. -/
theorem get?_insert [DecidableEq κ] (d : FinMap κ ν) (key : κ) (value : ν) (other : κ) :
    (d.insert key value).get? other = if other = key then some value else d.get? other := by
  split
  · next h => rw [h, get?_insert_self]
  · next h => exact get?_insert_of_ne d value h

/-- After several insertions the last value given for a key counts. -/
theorem get?_insertAll (d : FinMap κ ν) (pairs : List (κ × ν)) (key : κ) :
    (d.insertAll pairs).get? key = (pairs.reverse.lookup key).or (d.get? key) := by
  induction pairs generalizing d with
  | nil => simp [insertAll]
  | cons e es ih =>
    obtain ⟨k, v⟩ := e
    have step : d.insertAll ((k, v) :: es) = (d.insert k v).insertAll es := rfl
    rw [step, ih, List.reverse_cons, List.lookup_append]
    by_cases h : key = k
    · subst h
      cases es.reverse.lookup key <;> simp
    · have hb : (key == k) = false := by simpa using h
      cases es.reverse.lookup key <;> simp [get?_insert_of_ne _ _ h, hb, List.lookup_cons]

theorem get?_ofList (pairs : List (κ × ν)) (key : κ) :
    (ofList pairs).get? key = pairs.reverse.lookup key := by
  rw [ofList, get?_insertAll, get?_empty, Option.or_none]

/-- Of two layers the top one counts, where it has a value. -/
theorem get?_merge (d top : FinMap κ ν) (key : κ) :
    (d.merge top).get? key = (top.get? key).or (d.get? key) := by
  -- every key of the top layer stands once, so the order of its entries makes no difference
  have hnodup : (top.entries.reverse.map Prod.fst).Nodup := by
    rw [List.map_reverse]
    exact List.pairwise_reverse.2 (top.nodup.imp Ne.symm)
  have hreverse : top.entries.reverse.lookup key = top.get? key := by
    ext value
    rw [get?_eq_some_iff, ← List.mem_reverse]
    exact get?_eq_some_iff ⟨top.entries.reverse, hnodup⟩ key value
  rw [merge, get?_insertAll, hreverse]

end FinMap

end CondRegions
