/-!
# Finite maps from names

A map from names to values, kept as a list of entries in the order in which the names were first
entered. No name has two entries, so the number of entries is the number of names.

Main statements: `find?_insert` says what is found after an entry was written, and
`size_insert` how the number of names grows.
-/

namespace ClassLet

structure NameMap (α : Type) where
  entries : List (String × α)
  nodup : (entries.map Prod.fst).Nodup

namespace NameMap

variable {α : Type}

def empty : NameMap α :=
  { entries := [], nodup := List.nodup_nil }

instance : Inhabited (NameMap α) :=
  ⟨empty⟩

instance : EmptyCollection (NameMap α) :=
  ⟨empty⟩

/-!
# Reading
-/

def find? (m : NameMap α) (name : String) : Option α :=
  m.entries.lookup name

def contains (m : NameMap α) (name : String) : Bool :=
  (m.find? name).isSome

def names (m : NameMap α) : List String :=
  m.entries.map Prod.fst

def size (m : NameMap α) : Nat :=
  m.entries.length

def isEmpty (m : NameMap α) : Bool :=
  m.entries.isEmpty

theorem lookup_isSome_iff (entries : List (String × α)) (name : String) :
    (entries.lookup name).isSome ↔ name ∈ entries.map Prod.fst := by
  induction entries with
  | nil => simp
  | cons e rest ih =>
      obtain ⟨k, v⟩ := e
      by_cases h : name = k
      · simp [h]
      · have hne : (name == k) = false := by simpa using h
        simp [List.lookup_cons, hne, h, ih]

theorem contains_iff (m : NameMap α) (name : String) :
    m.contains name ↔ name ∈ m.names :=
  lookup_isSome_iff m.entries name

theorem find?_eq_none_iff (m : NameMap α) (name : String) :
    m.find? name = none ↔ name ∉ m.names := by
  rw [← contains_iff, contains]
  cases m.find? name <;> simp

/-!
# Writing

A new name goes to the end; writing to a known name keeps its place.
-/

def overwrite (name : String) (value : α) : List (String × α) → List (String × α)
  | [] => [(name, value)]
  | (k, v) :: rest =>
      if name = k then (k, value) :: rest else (k, v) :: overwrite name value rest

theorem mem_overwrite_names (name : String) (value : α) (entries : List (String × α)) (k : String) :
    k ∈ (overwrite name value entries).map Prod.fst ↔ k = name ∨ k ∈ entries.map Prod.fst := by
  induction entries with
  | nil => simp [overwrite]
  | cons e rest ih =>
      obtain ⟨k', v⟩ := e
      by_cases h : name = k'
      · simp [overwrite, h]
      · simp only [overwrite, h, if_false, List.map_cons, List.mem_cons, ih]
        grind

theorem overwrite_nodup (name : String) (value : α) (entries : List (String × α))
    (h : (entries.map Prod.fst).Nodup) :
    ((overwrite name value entries).map Prod.fst).Nodup := by
  induction entries with
  | nil => simp [overwrite]
  | cons e rest ih =>
      obtain ⟨k, v⟩ := e
      by_cases hk : name = k
      · simpa [overwrite, hk] using h
      · simp only [List.map_cons, List.nodup_cons] at h
        simp only [overwrite, hk, if_false, List.map_cons, List.nodup_cons, mem_overwrite_names]
        exact ⟨by grind, ih h.2⟩

def insert (m : NameMap α) (name : String) (value : α) : NameMap α :=
  { entries := overwrite name value m.entries
    nodup := overwrite_nodup name value m.entries m.nodup }

/-- Entries are written in order, so the last one of a name wins. -/
def ofList (entries : List (String × α)) : NameMap α :=
  entries.foldl (fun m e => m.insert e.1 e.2) empty

theorem lookup_overwrite (name : String) (value : α) (entries : List (String × α)) (k : String) :
    (overwrite name value entries).lookup k =
      if k = name then some value else entries.lookup k := by
  induction entries with
  | nil =>
      by_cases hk : k = name
      · simp [overwrite, hk]
      · have hkb : (k == name) = false := by simpa using hk
        simp [overwrite, List.lookup_cons, hk, hkb]
  | cons e rest ih =>
      obtain ⟨k', v⟩ := e
      by_cases hk' : k = k'
      · subst hk'
        by_cases h : name = k <;> simp [overwrite, h, eq_comm]
      · have hkb : (k == k') = false := by simpa using hk'
        by_cases h : name = k'
        · subst h
          simp [overwrite, List.lookup_cons, hk', hkb]
        · simp [overwrite, h, List.lookup_cons, hkb, ih]

@[simp]
theorem find?_empty (name : String) : (empty : NameMap α).find? name = none :=
  rfl

theorem find?_insert (m : NameMap α) (name : String) (value : α) (k : String) :
    (m.insert name value).find? k = if k = name then some value else m.find? k :=
  lookup_overwrite name value m.entries k

@[simp]
theorem find?_insert_self (m : NameMap α) (name : String) (value : α) :
    (m.insert name value).find? name = some value := by
  simp [find?_insert]

theorem length_overwrite (name : String) (value : α) (entries : List (String × α)) :
    (overwrite name value entries).length =
      if name ∈ entries.map Prod.fst then entries.length else entries.length + 1 := by
  induction entries with
  | nil => simp [overwrite]
  | cons e rest ih =>
      obtain ⟨k, v⟩ := e
      by_cases h : name = k
      · simp [overwrite, h]
      · simp only [overwrite, h, if_false, List.length_cons, ih, List.map_cons, List.mem_cons,
          false_or]
        split <;> rfl

theorem size_insert (m : NameMap α) (name : String) (value : α) :
    (m.insert name value).size = if m.contains name then m.size else m.size + 1 := by
  simp only [contains_iff]
  exact length_overwrite name value m.entries

end NameMap

end ClassLet
