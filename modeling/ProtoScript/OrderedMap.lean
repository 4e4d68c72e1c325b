/-!
# Maps from names

`NameMap` is a finite map from names to values.  `OrderedMap` keeps beside such a map the names in
the order in which they came in: writing to a name that is there keeps its place, and a name that
was erased comes in anew.
-/

namespace ProtoScript

/-- The pairs of a map from names.  Nothing but `find?` looks at their order. -/
structure NameMap (β : Type) where
  entries : List (String × β) := []
  deriving Inhabited

namespace NameMap

variable {β : Type}

def empty : NameMap β := ⟨[]⟩

def find? (m : NameMap β) (key : String) : Option β := m.entries.lookup key

def contains (m : NameMap β) (key : String) : Bool := (m.find? key).isSome

def insertEntry (key : String) (value : β) : List (String × β) → List (String × β)
  | [] => [(key, value)]
  | (k, v) :: rest =>
    if key == k then (k, value) :: rest else (k, v) :: insertEntry key value rest

def insert (m : NameMap β) (key : String) (value : β) : NameMap β :=
  ⟨insertEntry key value m.entries⟩

def erase (m : NameMap β) (key : String) : NameMap β :=
  ⟨m.entries.filter fun entry => entry.1 != key⟩

@[simp] theorem find?_empty (key : String) : (empty : NameMap β).find? key = none := rfl

private theorem lookup_cons_eq_ite (key other : String) (value : β) (rest : List (String × β)) :
    List.lookup other ((key, value) :: rest) =
      if other = key then some value else rest.lookup other := by
  by_cases h : other = key
  · simp [h]
  · simp [List.lookup_cons, h, beq_false_of_ne h]

private theorem lookup_insertEntry (key other : String) (value : β) (entries : List (String × β)) :
    (insertEntry key value entries).lookup other =
      if other = key then some value else entries.lookup other := by
  induction entries with
  | nil => simp [insertEntry, lookup_cons_eq_ite]
  | cons entry rest ih =>
    obtain ⟨k, v⟩ := entry
    by_cases hk : key = k
    · subst hk
      by_cases h : other = key <;> simp [insertEntry, lookup_cons_eq_ite, h]
    · by_cases ho : other = k
      · subst ho
        simp [insertEntry, hk, Ne.symm hk]
      · simp [insertEntry, lookup_cons_eq_ite, hk, ho, ih]

@[grind =] theorem find?_insert (m : NameMap β) (key other : String) (value : β) :
    (m.insert key value).find? other = if other = key then some value else m.find? other :=
  lookup_insertEntry key other value m.entries

private theorem lookup_filter_ne (key other : String) (entries : List (String × β)) :
    (entries.filter fun entry => entry.1 != key).lookup other =
      if other = key then none else entries.lookup other := by
  induction entries with
  | nil => simp
  | cons entry rest ih =>
    obtain ⟨k, v⟩ := entry
    by_cases hk : k = key
    · subst hk
      by_cases h : other = k
      · simpa [h] using ih
      · simpa [lookup_cons_eq_ite, h] using ih
    · by_cases ho : other = k
      · subst ho
        simp [hk]
      · simpa [lookup_cons_eq_ite, hk, ho] using ih

@[grind =] theorem find?_erase (m : NameMap β) (key other : String) :
    (m.erase key).find? other = if other = key then none else m.find? other :=
  lookup_filter_ne key other m.entries

end NameMap

/-- A map and, beside it, the names in the order in which they came in. -/
structure OrderedMap (β : Type) where
  values : NameMap β := .empty
  keys : List String := []
  deriving Inhabited

namespace OrderedMap

variable {β : Type}

def empty : OrderedMap β := {}

def find? (m : OrderedMap β) (key : String) : Option β := m.values.find? key

def contains (m : OrderedMap β) (key : String) : Bool := (m.find? key).isSome

/-- Writes a value.  A name that is not there comes in behind all others. -/
def insert (m : OrderedMap β) (key : String) (value : β) : OrderedMap β where
  values := m.values.insert key value
  keys := if m.contains key then m.keys else m.keys ++ [key]

def erase (m : OrderedMap β) (key : String) : OrderedMap β where
  values := m.values.erase key
  keys := m.keys.filter fun other => other != key

def ofList (entries : List (String × β)) : OrderedMap β :=
  entries.foldl (fun m entry => m.insert entry.1 entry.2) empty

/-- The names that have a value, in their order, each with its value. -/
def entries (m : OrderedMap β) : List (String × β) :=
  m.keys.filterMap fun key => (m.find? key).map fun value => (key, value)

@[simp] theorem find?_empty (key : String) : (empty : OrderedMap β).find? key = none := rfl

@[grind =] theorem find?_insert (m : OrderedMap β) (key other : String) (value : β) :
    (m.insert key value).find? other = if other = key then some value else m.find? other :=
  m.values.find?_insert key other value

@[grind =] theorem find?_erase (m : OrderedMap β) (key other : String) :
    (m.erase key).find? other = if other = key then none else m.find? other :=
  m.values.find?_erase key other

private theorem find?_foldl_insert {entries : List (String × β)} {m : OrderedMap β} {key : String} :
    (∀ value, (entries.foldl (fun m entry => m.insert entry.1 entry.2) m).find? key = some value →
      m.find? key = some value ∨ (key, value) ∈ entries) ∧
    ((entries.foldl (fun m entry => m.insert entry.1 entry.2) m).find? key = none →
      m.find? key = none ∧ key ∉ entries.map Prod.fst) := by
  induction entries generalizing m with
  | nil => simp
  | cons entry rest ih =>
    obtain ⟨hsome, hnone⟩ := ih (m := m.insert entry.1 entry.2)
    rw [List.foldl_cons]
    constructor
    · intro value h
      rcases hsome value h with hfound | hrest
      · rw [find?_insert] at hfound
        split at hfound
        · next heq =>
          cases hfound
          exact .inr (by simp [heq])
        · exact .inl hfound
      · exact .inr (List.mem_cons_of_mem _ hrest)
    · intro h
      obtain ⟨hfound, hrest⟩ := hnone h
      rw [find?_insert] at hfound
      split at hfound
      · cases hfound
      · next hne => exact ⟨hfound, by simpa [hne] using hrest⟩

theorem mem_of_find?_ofList {entries : List (String × β)} {key : String} {value : β}
    (h : (ofList entries).find? key = some value) : (key, value) ∈ entries :=
  (find?_foldl_insert.1 value h).resolve_left nofun

theorem find?_ofList_ne_none {entries : List (String × β)} {key : String}
    (h : key ∈ entries.map Prod.fst) : (ofList entries).find? key ≠ none :=
  fun hnone => (find?_foldl_insert.2 hnone).2 h

theorem find?_of_mem_entries {m : OrderedMap β} {entry : String × β} (h : entry ∈ m.entries) :
    m.find? entry.1 = some entry.2 := by
  obtain ⟨key, -, hentry⟩ := List.mem_filterMap.mp h
  obtain ⟨value, hvalue, rfl⟩ := Option.map_eq_some_iff.mp hentry
  exact hvalue

/-! ### The order and the map -/

/-- Each name that has a value stands in the order once, and no other name does. -/
structure InStep (m : OrderedMap β) : Prop where
  nodup : m.keys.Nodup
  mem_keys_iff : ∀ key, key ∈ m.keys ↔ m.find? key ≠ none

theorem lookup_entries (m : OrderedMap β) (key : String) :
    m.entries.lookup key = if key ∈ m.keys then m.find? key else none := by
  unfold entries
  induction m.keys with
  | nil => rfl
  | cons other rest ih =>
    by_cases hkey : key = other
    · subst hkey
      cases hfound : m.find? key with
      | none => simp [hfound, ih]
      | some value => simp [hfound]
    · cases hfound : m.find? other with
      | none => simp [hfound, ih, hkey]
      | some value => simp [hfound, ih, hkey, List.lookup_cons, beq_false_of_ne hkey]

namespace InStep

variable {m : OrderedMap β}

theorem empty : (OrderedMap.empty : OrderedMap β).InStep where
  nodup := .nil
  mem_keys_iff key := by simp [OrderedMap.empty, OrderedMap.find?, NameMap.empty, NameMap.find?]

theorem insert (h : m.InStep) (key : String) (value : β) : (m.insert key value).InStep := by
  by_cases hkey : key ∈ m.keys
  · have hkeys : (m.insert key value).keys = m.keys := by
      rw [OrderedMap.insert, contains, Option.isSome_iff_ne_none.mpr ((h.mem_keys_iff key).mp hkey),
        if_pos rfl]
    refine ⟨hkeys ▸ h.nodup, fun other => ?_⟩
    rw [hkeys, find?_insert, h.mem_keys_iff]
    by_cases heq : other = key
    · simp [heq, (h.mem_keys_iff key).mp hkey]
    · simp [heq]
  · have hnone : m.find? key = none := Classical.not_not.mp (mt (h.mem_keys_iff key).mpr hkey)
    have hkeys : (m.insert key value).keys = m.keys ++ [key] := by
      rw [OrderedMap.insert, contains, hnone]
      rfl
    refine ⟨?_, fun other => ?_⟩
    · rw [hkeys]
      refine List.nodup_append.mpr ⟨h.nodup, by simp, fun other hother new hnew heq => hkey ?_⟩
      rwa [← List.mem_singleton.mp hnew, ← heq]
    · rw [hkeys, find?_insert, List.mem_append, List.mem_singleton, h.mem_keys_iff]
      by_cases heq : other = key <;> simp [heq]

theorem erase (h : m.InStep) (key : String) : (m.erase key).InStep where
  nodup := h.nodup.filter _
  mem_keys_iff other := by
    rw [OrderedMap.erase, List.mem_filter, h.mem_keys_iff]
    change _ ↔ (m.erase key).find? other ≠ none
    rw [find?_erase]
    by_cases heq : other = key <;> simp [heq]

private theorem foldl_insert (h : m.InStep) (entries : List (String × β)) :
    (entries.foldl (fun m entry => m.insert entry.1 entry.2) m).InStep := by
  induction entries generalizing m with
  | nil => exact h
  | cons entry rest ih => exact ih (h.insert entry.1 entry.2)

theorem ofList (entries : List (String × β)) : (OrderedMap.ofList entries).InStep :=
  empty.foldl_insert entries

theorem lookup_entries (h : m.InStep) (key : String) : m.entries.lookup key = m.find? key := by
  rw [OrderedMap.lookup_entries]
  split
  · rfl
  · next hkey => exact (Classical.not_not.mp (mt (h.mem_keys_iff key).mpr hkey)).symm

end InStep

end OrderedMap

end ProtoScript
