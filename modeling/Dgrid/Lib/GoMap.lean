import Mathlib.Data.List.AList

/-! A Go map is a finite map whose iteration order the runtime picks afresh at every `range`.
Here it is Mathlib's association list with distinct keys: what the map holds is read through
`lookup`, its length is the number of entries, and a `range` visits its values in some order
that is a permutation of `values`. -/

namespace GoMap

/-- A map from `κ` to `ν`. -/
abbrev Map (κ ν : Type) := AList fun _ : κ => ν

variable {κ ν : Type}

/-- The values of the map, one for each key. -/
def values (m : Map κ ν) : List ν := m.entries.map Sigma.snd

def len (m : Map κ ν) : Nat := m.entries.length

@[simp] theorem length_values (m : Map κ ν) : (values m).length = len m := by
  simp [values, len]

@[simp] theorem values_empty : values (∅ : Map κ ν) = [] := rfl

variable [DecidableEq κ] {m : Map κ ν} {k : κ} {v : ν}

theorem mem_values : v ∈ values m ↔ ∃ k, m.lookup k = some v := by
  simp only [values, List.mem_map]
  constructor
  · rintro ⟨⟨k, v⟩, h, rfl⟩
    exact ⟨k, AList.mem_lookup_iff.mpr h⟩
  · rintro ⟨k, h⟩
    exact ⟨⟨k, v⟩, AList.mem_lookup_iff.mp h, rfl⟩

theorem values_insert (m : Map κ ν) (k : κ) (v : ν) :
    values (m.insert k v) = v :: values (m.erase k) := rfl

theorem values_insert_of_notMem (h : k ∉ m) (v : ν) :
    values (m.insert k v) = v :: values m := by
  simp only [values, AList.entries_insert_of_notMem h, List.map_cons]

theorem values_perm_erase (h : m.lookup k = some v) :
    (values m).Perm (v :: values (m.erase k)) := by
  have hk : k ∈ m.keys := AList.mem_keys.mp (AList.lookup_isSome.mp (by simp [h]))
  obtain ⟨v', l₁, l₂, -, he, hk⟩ := List.exists_of_kerase hk
  have hv : v' = v := by
    have : m.lookup k = some v' := AList.mem_lookup_iff.mpr (by rw [he]; simp)
    exact Option.some.inj (this.symm.trans h)
  subst hv
  have herase : (m.erase k).entries = l₁ ++ l₂ := hk
  simp only [values, herase, he, List.map_append, List.map_cons]
  exact List.perm_middle

theorem lookup_insert_eq_some {k' : κ} {v' : ν} :
    (m.insert k' v').lookup k = some v ↔ (k = k' ∧ v' = v) ∨ (k ≠ k' ∧ m.lookup k = some v) := by
  by_cases hk : k = k'
  · subst hk
    simp
  · simp [AList.lookup_insert_ne hk, hk]

theorem lookup_erase_eq_some {k' : κ} :
    (m.erase k').lookup k = some v ↔ k ≠ k' ∧ m.lookup k = some v := by
  by_cases hk : k = k'
  · subst hk
    simp
  · simp [AList.lookup_erase_ne hk, hk]

theorem lookup_erase_of_eq_none {k' : κ} (h : m.lookup k = none) : (m.erase k').lookup k = none := by
  by_cases hk : k = k'
  · subst hk
    exact AList.lookup_erase _ _
  · rw [AList.lookup_erase_ne hk, h]

@[simp] theorem erase_erase_self (m : Map κ ν) (k : κ) : (m.erase k).erase k = m.erase k :=
  AList.ext (List.kerase_of_notMem_keys (List.notMem_keys_kerase k m.nodupKeys))

theorem len_insert_of_notMem (h : k ∉ m) (v : ν) : len (m.insert k v) = len m + 1 := by
  rw [← length_values, values_insert_of_notMem h, List.length_cons, length_values]

theorem len_erase_of_lookup (h : m.lookup k = some v) : len (m.erase k) + 1 = len m := by
  rw [← length_values, ← length_values, (values_perm_erase h).length_eq, List.length_cons]

theorem len_insert_of_lookup (h : m.lookup k = some v) (v' : ν) : len (m.insert k v') = len m := by
  have : len (m.insert k v') = len (m.erase k) + 1 := by
    simp only [len, AList.entries_insert, List.length_cons]
    rfl
  rw [this, len_erase_of_lookup h]

theorem len_erase_of_notMem (h : k ∉ m) : len (m.erase k) = len m := by
  show (m.entries.kerase k).length = m.entries.length
  rw [List.kerase_of_notMem_keys (AList.mem_keys.not.mp h)]

end GoMap
