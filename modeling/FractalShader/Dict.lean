/-
  This file defines finite maps from strings, kept as lists
  of entries whose keys increase strictly.

  Two maps with the same entries are the same value, so
  equality of maps is equality of lists, and every map is
  listed in one order.

  Key definitions include:
    * `Dict`
    * `Dict.get?`
    * `Dict.insert`
    * `Dict.erase`
    * `Dict.pop?`
    * `Dict.ofList`
-/

namespace FractalShader

------------------------------------------------------------
-- Entry Lists
------------------------------------------------------------

namespace Entries

variable {α : Type}

/- Keys of an entry list increase strictly. -/
def Sorted (entries : List (String × α)) : Prop :=
  entries.Pairwise (fun a b => a.1 < b.1)

/-
  Insert one entry in key order, replacing the entry that
  has the same key.
-/
def insert
    (key : String)
    (value : α) :
    List (String × α) → List (String × α)
  | [] => [(key, value)]
  | (k, v) :: rest =>
      if key < k then
        (key, value) :: (k, v) :: rest
      else if key = k then
        (key, value) :: rest
      else
        (k, v) :: insert key value rest

/- An entry after an insertion is the new or an old one. -/
theorem mem_insert
    {key : String}
    {value : α}
    {entry : String × α}
    {entries : List (String × α)}
    (h : entry ∈ insert key value entries) :
    entry = (key, value) ∨ entry ∈ entries := by
  induction entries with
  | nil =>
      simpa [insert] using h
  | cons head rest ih =>
      rcases head with ⟨k, v⟩
      rw [insert] at h
      split at h
      · simpa using h
      · split at h
        · rcases List.mem_cons.mp h with h | h
          · exact Or.inl h
          · exact Or.inr (List.mem_cons_of_mem _ h)
        · rcases List.mem_cons.mp h with h | h
          · exact Or.inr (h ▸ List.mem_cons_self)
          · rcases ih h with h | h
            · exact Or.inl h
            · exact Or.inr (List.mem_cons_of_mem _ h)

/- Insertion keeps the keys increasing. -/
theorem sorted_insert
    (key : String)
    (value : α)
    {entries : List (String × α)}
    (h : Sorted entries) :
    Sorted (insert key value entries) := by
  induction entries with
  | nil =>
      simp [Sorted, insert]
  | cons head rest ih =>
      rcases head with ⟨k, v⟩
      have hHead := (List.pairwise_cons.mp h).1
      have hRest : Sorted rest := (List.pairwise_cons.mp h).2
      rw [insert]
      split
      · rename_i hLt
        refine List.pairwise_cons.mpr ⟨?_, h⟩
        intro entry hMem
        rcases List.mem_cons.mp hMem with hMem | hMem
        · exact hMem ▸ hLt
        · exact String.lt_trans hLt (hHead entry hMem)
      · split
        · rename_i hEq
          refine List.pairwise_cons.mpr ⟨?_, hRest⟩
          intro entry hMem
          exact hEq ▸ hHead entry hMem
        · rename_i hNotLt hNe
          refine List.pairwise_cons.mpr ⟨?_, ih hRest⟩
          intro entry hMem
          rcases mem_insert hMem with hMem | hMem
          · have hLe : k ≤ key := String.not_lt.mp hNotLt
            have hLt : k < key := by
              apply Decidable.byContradiction
              intro hNot
              exact hNe
                (String.le_antisymm
                  (String.not_lt.mp hNot) hLe)
            exact hMem ▸ hLt
          · exact hHead entry hMem

/- Removing entries keeps the keys increasing. -/
theorem sorted_filter
    (keep : String × α → Bool)
    {entries : List (String × α)}
    (h : Sorted entries) :
    Sorted (entries.filter keep) :=
  h.filter keep

end Entries

------------------------------------------------------------
-- Maps
------------------------------------------------------------

/- A map from strings, listed with increasing keys. -/
structure Dict (α : Type) where
  entries : List (String × α)
  sorted : Entries.Sorted entries

namespace Dict

variable {α β : Type}

/- A map is determined by its entries. -/
theorem ext_entries
    {d e : Dict α}
    (h : d.entries = e.entries) : d = e := by
  cases d
  cases e
  cases h
  rfl

instance [DecidableEq α] : DecidableEq (Dict α) :=
  fun d e =>
    if h : d.entries = e.entries then
      isTrue (ext_entries h)
    else
      isFalse (fun hEq => h (congrArg Dict.entries hEq))

/- The map without entries. -/
def empty : Dict α where
  entries := []
  sorted := List.Pairwise.nil

instance : Inhabited (Dict α) := ⟨empty⟩

/- The value stored under a key. -/
def get?
    (d : Dict α)
    (key : String) : Option α :=
  (d.entries.find? (fun entry => entry.1 == key)).map (·.2)

/- A key is present. -/
def contains
    (d : Dict α)
    (key : String) : Bool :=
  (d.get? key).isSome

/- Store a value under a key, replacing an earlier one. -/
def insert
    (d : Dict α)
    (key : String)
    (value : α) : Dict α where
  entries := Entries.insert key value d.entries
  sorted := Entries.sorted_insert key value d.sorted

/- Remove a key. -/
def erase
    (d : Dict α)
    (key : String) : Dict α where
  entries := d.entries.filter (fun entry => entry.1 != key)
  sorted := Entries.sorted_filter _ d.sorted

/- The entry with the smallest key, and the other entries. -/
def pop? (d : Dict α) : Option ((String × α) × Dict α) :=
  match d with
  | ⟨[], _⟩ => none
  | ⟨entry :: rest, h⟩ =>
      some (entry, ⟨rest, (List.pairwise_cons.mp h).2⟩)

/- Collect entries; the last entry of a key counts. -/
def ofList (entries : List (String × α)) : Dict α :=
  entries.foldl (fun d entry => d.insert entry.1 entry.2) empty

/- The keys in increasing order. -/
def keys (d : Dict α) : List String :=
  d.entries.map (·.1)

/- The values in the order of their keys. -/
def values (d : Dict α) : List α :=
  d.entries.map (·.2)

/- The keys of a map increase strictly. -/
theorem pairwise_keys
    (d : Dict α) :
    d.keys.Pairwise (· < ·) := by
  unfold keys
  exact List.pairwise_map.mpr d.sorted

end Dict

------------------------------------------------------------
-- Lookup Laws
------------------------------------------------------------

namespace Dict

variable {α : Type}

/- The first entry found under a key after an insertion. -/
private theorem find?_insert
    (key other : String)
    (value : α)
    (entries : List (String × α)) :
    ((Entries.insert key value entries).find?
        (fun entry => entry.1 == other)).map (·.2) =
      if other = key then
        some value
      else
        (entries.find? (fun entry => entry.1 == other)).map
          (·.2) := by
  induction entries with
  | nil =>
      by_cases h : other = key
      · simp [Entries.insert, h]
      · have h' : ¬ key = other := fun hEq => h hEq.symm
        simp [Entries.insert, h, h']
  | cons head rest ih =>
      rcases head with ⟨k, v⟩
      rw [Entries.insert]
      split
      · by_cases h : other = key
        · simp [h]
        · have h' : ¬ key = other := fun hEq => h hEq.symm
          simp [h, h']
      · split
        · rename_i hEq
          subst hEq
          by_cases h : other = key
          · simp [h]
          · have h' : ¬ key = other := fun hEq => h hEq.symm
            simp [h, h']
        · rename_i hNe
          by_cases hk : k = other
          · have h : ¬ other = key := by
              intro hEq
              exact hNe (hEq ▸ hk.symm)
            simp [hk, h]
          · have hk' : (k == other) = false := by
              simpa using hk
            simp only [List.find?_cons, hk']
            exact ih

/- A stored value is read back; other keys are untouched. -/
@[simp] theorem get?_insert
    (d : Dict α)
    (key other : String)
    (value : α) :
    (d.insert key value).get? other =
      if other = key then some value else d.get? other :=
  find?_insert key other value d.entries

/- A removed key is absent, and other keys are untouched. -/
@[simp] theorem get?_erase
    (d : Dict α)
    (key other : String) :
    (d.erase key).get? other =
      if other = key then none else d.get? other := by
  unfold get? erase
  rw [List.find?_filter]
  by_cases h : other = key
  · rw [if_pos h]
    have hNone :
        d.entries.find?
            (fun entry =>
              decide
                ((entry.1 != key) = true ∧
                  (entry.1 == other) = true)) =
          none := by
      apply List.find?_eq_none.mpr
      intro entry _
      simp [h]
    rw [hNone]
    rfl
  · rw [if_neg h]
    congr 2
    funext entry
    by_cases hEq : entry.1 = other
    · simp [hEq, h]
    · simp [hEq]

/- The empty map has no keys. -/
@[simp] theorem get?_empty (key : String) :
    (empty : Dict α).get? key = none := rfl

/- The values found are those of the entries. -/
theorem get?_eq_some_iff
    (d : Dict α)
    (key : String)
    (value : α) :
    d.get? key = some value ↔ (key, value) ∈ d.entries := by
  rcases d with ⟨entries, hSorted⟩
  simp only [get?]
  induction entries with
  | nil => simp
  | cons head rest ih =>
      rcases head with ⟨k, v⟩
      have hHead := (List.pairwise_cons.mp hSorted).1
      have hRest := ih (List.pairwise_cons.mp hSorted).2
      by_cases h : k = key
      · subst h
        have hAbsent : (k, value) ∉ rest := fun hMem =>
          String.lt_irrefl k (hHead _ hMem)
        simp [hAbsent, eq_comm]
      · have h' : ¬ key = k := fun hEq => h hEq.symm
        simpa [h, h'] using hRest

/- The keys are those under which a value is found. -/
theorem mem_keys_iff
    (d : Dict α)
    (key : String) :
    key ∈ d.keys ↔ d.contains key = true := by
  rw [contains, Option.isSome_iff_exists]
  simp [keys, get?_eq_some_iff]

/- A key is stored by an insertion, or it was there before. -/
@[simp] theorem contains_insert
    (d : Dict α)
    (key other : String)
    (value : α) :
    (d.insert key value).contains other = true ↔
      other = key ∨ d.contains other = true := by
  rw [contains, get?_insert, contains]
  split <;> simp_all

end Dict

------------------------------------------------------------
-- The Smallest Key
------------------------------------------------------------

namespace Dict

variable {α : Type}

/- A map without keys, and no other, has no smallest one. -/
theorem pop?_eq_none_iff (d : Dict α) :
    d.pop? = none ↔ ∀ key, d.contains key = false := by
  rcases d with ⟨entries, hSorted⟩
  cases entries with
  | nil => simp [pop?, contains, get?]
  | cons entry rest =>
      constructor
      · intro h
        cases h
      · intro h
        have hHead := h entry.1
        simp [contains, get?] at hHead

/- The smallest key is taken from the map. -/
theorem pop?_eq_some
    {d rest : Dict α}
    {key : String}
    {value : α}
    (h : d.pop? = some ((key, value), rest)) :
    d.contains key = true ∧
      (∀ other, d.contains other = true →
        other = key ∨ key < other) ∧
      ∀ other, rest.contains other = true ↔
        d.contains other = true ∧ other ≠ key := by
  rcases d with ⟨entries, hSorted⟩
  cases entries with
  | nil => cases h
  | cons entry entries =>
      cases h
      have hHead := (List.pairwise_cons.mp hSorted).1
      simp only [← mem_keys_iff, keys, List.map_cons,
        List.mem_cons]
      refine ⟨Or.inl trivial, ?_, ?_⟩
      · rintro other (rfl | hMem)
        · exact Or.inl rfl
        · rcases List.mem_map.mp hMem with ⟨found, hFound, rfl⟩
          exact Or.inr (hHead found hFound)
      · intro other
        constructor
        · intro hMem
          refine ⟨Or.inr hMem, ?_⟩
          rintro rfl
          rcases List.mem_map.mp hMem with ⟨found, hFound, hEq⟩
          exact
            String.lt_irrefl _ (hEq ▸ hHead found hFound)
        · rintro ⟨rfl | hMem, hNe⟩
          · exact absurd rfl hNe
          · exact hMem

end Dict

------------------------------------------------------------
-- Collected Entries
------------------------------------------------------------

namespace Dict

variable {α : Type}

/- Entries are found before those of the map they go into. -/
private theorem get?_foldl_insert
    (entries : List (String × α))
    (d : Dict α)
    (key : String) :
    (entries.foldl (fun d e => d.insert e.1 e.2) d).get? key =
      ((entries.reverse.find? (fun e => e.1 == key)).map
        (·.2)).or (d.get? key) := by
  induction entries generalizing d with
  | nil => rfl
  | cons entry entries ih =>
      rcases entry with ⟨k, v⟩
      rw [List.foldl_cons, ih, get?_insert, List.reverse_cons,
        List.find?_append]
      cases entries.reverse.find? (fun e => e.1 == key) with
      | some found => rfl
      | none =>
          by_cases h : key = k
          · simp [h]
          · have h' : ¬ k = key := fun hEq => h hEq.symm
            simp [h, h']

/- The last entry of a key is found. -/
theorem get?_ofList
    (entries : List (String × α))
    (key : String) :
    (ofList entries).get? key =
      (entries.reverse.find? (fun e => e.1 == key)).map
        (·.2) := by
  simp [ofList, get?_foldl_insert]

/- Values that belong to some keys are found under these. -/
theorem get?_ofList_map
    (keys : List String)
    (value : String → α)
    (key : String) :
    (ofList (keys.map fun k => (k, value k))).get? key =
      if key ∈ keys then some (value key) else none := by
  rw [get?_ofList]
  split
  · rename_i hMem
    have hFound :
        ((keys.map fun k => (k, value k)).reverse.find?
          (fun e => e.1 == key)).isSome := by
      rw [List.find?_isSome]
      refine ⟨(key, value key), ?_, beq_self_eq_true key⟩
      rw [List.mem_reverse]
      exact List.mem_map_of_mem hMem
    rcases Option.isSome_iff_exists.mp hFound with
      ⟨entry, hEntry⟩
    have hKey := List.find?_some hEntry
    have hMem := List.mem_of_find?_eq_some hEntry
    simp only [List.mem_reverse, List.mem_map] at hMem
    rcases hMem with ⟨k, _, rfl⟩
    rw [hEntry]
    simp only [beq_iff_eq] at hKey
    simp [hKey]
  · rename_i hNot
    rw [Option.map_eq_none_iff, List.find?_eq_none]
    intro entry hEntry hKey
    simp only [List.mem_reverse, List.mem_map] at hEntry
    rcases hEntry with ⟨k, hMem, rfl⟩
    simp only [beq_iff_eq] at hKey
    exact hNot (hKey ▸ hMem)

/- The keys are those of the collected entries. -/
theorem contains_ofList
    (entries : List (String × α))
    (key : String) :
    (ofList entries).contains key = true ↔
      ∃ entry ∈ entries, entry.1 = key := by
  rw [contains, get?_ofList]
  simp

end Dict

------------------------------------------------------------
-- Sizes and Sums
------------------------------------------------------------

namespace Dict

variable {α : Type}

/- Removing the smallest key leaves one entry less. -/
theorem length_of_pop?
    {d rest : Dict α}
    {entry : String × α}
    (h : d.pop? = some (entry, rest)) :
    d.entries.length = rest.entries.length + 1 := by
  unfold pop? at h
  split at h
  · cases h
  · cases h
    rfl

/- Storing a value adds at most one entry. -/
theorem length_insert_le
    (d : Dict α)
    (key : String)
    (value : α) :
    (d.insert key value).entries.length ≤
      d.entries.length + 1 := by
  change (Entries.insert key value d.entries).length ≤ _
  induction d.entries with
  | nil => simp [Entries.insert]
  | cons head rest ih =>
      rw [Entries.insert]
      split
      · simp
      · split
        · simp
        · simpa using ih

/- The sum of the stored numbers. -/
def total (d : Dict Nat) : Nat :=
  d.values.foldr (· + ·) 0

/- Lowering a stored number lowers the sum by one. -/
theorem total_insert
    (d : Dict Nat)
    {key : String}
    {n : Nat}
    (h : d.get? key = some (n + 1)) :
    (d.insert key n).total + 1 = d.total := by
  rw [get?_eq_some_iff] at h
  rcases d with ⟨entries, hSorted⟩
  simp only [total, insert, values]
  induction entries with
  | nil => cases h
  | cons head rest ih =>
      rcases head with ⟨k, v⟩
      have hHead := (List.pairwise_cons.mp hSorted).1
      rcases List.mem_cons.mp h with hEq | hMem
      · cases hEq
        rw [Entries.insert, if_neg (String.lt_irrefl key),
          if_pos rfl]
        simp only [List.map_cons, List.foldr_cons]
        omega
      · have hLt : k < key := hHead _ hMem
        have hNotLt : ¬ key < k :=
          String.lt_asymm hLt
        have hNe : ¬ key = k := by
          intro hEq
          exact String.lt_irrefl k (hEq ▸ hLt)
        have hRest := ih (List.pairwise_cons.mp hSorted).2 hMem
        rw [Entries.insert, if_neg hNotLt, if_neg hNe]
        simp only [List.map_cons, List.foldr_cons]
          at hRest ⊢
        omega

end Dict

end FractalShader
