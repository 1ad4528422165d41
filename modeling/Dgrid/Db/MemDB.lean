import Dgrid.Go.BytesOrder
import Dgrid.Go.Sort
import Dgrid.Lib.GoMap

/-! The in-memory store (mem_db.go), the key domain test (util.go) and the `Iterator`
interface (types.go). A `MemDB` is a Go map from keys to values; an iterator copies the keys of
the domain `[start, end)`, sorted (and reversed for a reverse iterator), and walks them with a
cursor, reading each value from the store. `nonNilBytes` is the identity here: a byte string
and its `nil` form are one value of `Bytes`. -/

namespace Dgrid.Db

open Go GoMap

/-- The `Iterator` interface, as the methods its usage loop calls. -/
structure Iterator (ι : Type) where
  Valid : ι → Bool
  Next : ι → Result ι
  Key : ι → Result Bytes
  Value : ι → Result (Option Bytes)

/-- The usage loop of types.go, `for ; itr.Valid(); itr.Next() { itr.Key(); itr.Value() }`,
returning the pairs it reads; `fuel` bounds its rounds. -/
def Iterator.pairs {ι : Type} (I : Iterator ι) : Nat → ι → Result (List (Bytes × Option Bytes))
  | 0, _ => .ok []
  | fuel + 1, itr =>
    if I.Valid itr then do
      let key ← I.Key itr
      let value ← I.Value itr
      let itr ← I.Next itr
      let rest ← I.pairs fuel itr
      pure ((key, value) :: rest)
    else .ok []

/-- `IsKeyInDomain(key, start, end)`: `start ≤ key`, and `key < end` unless `end` is nil. -/
def IsKeyInDomain (key start : Bytes) (end' : Option Bytes) : Bool :=
  if bytesCompare key start < 0 then false
  else if end'.any fun e => decide (bytesCompare e key ≤ 0) then false
  else true

theorem IsKeyInDomain_iff {key start : Bytes} {end' : Option Bytes} :
    IsKeyInDomain key start end' = true ↔
      bytesCompare key start ≠ -1 ∧ ∀ e, end' = some e → bytesCompare key e = -1 := by
  have hlt : ∀ a b : Bytes, bytesCompare a b < 0 ↔ bytesCompare a b = -1 := fun a b => by
    rcases bytesCompare_cases a b with h | h | h <;> simp [h]
  have hle : ∀ a b : Bytes, bytesCompare a b ≤ 0 ↔ bytesCompare b a ≠ -1 := fun a b => by
    rw [bytesCompare_swap a b]
    rcases bytesCompare_cases a b with h | h | h <;> simp [h]
  cases end' <;> simp [IsKeyInDomain, hlt, hle]

/-- `MemDB`. -/
structure MemDB where
  db : Map Bytes Bytes

namespace MemDB

/-- `db.Get(key)`: the value, or nil. -/
def Get (db : MemDB) (key : Bytes) : Option Bytes := db.db.lookup key

def Has (db : MemDB) (key : Bytes) : Bool := (db.db.lookup key).isSome

def Set (db : MemDB) (key value : Bytes) : MemDB := ⟨db.db.insert key value⟩

def Delete (db : MemDB) (key : Bytes) : MemDB := ⟨db.db.erase key⟩

def NewMemDB : MemDB := ⟨∅⟩

def SetNoLockSync (db : MemDB) (key value : Bytes) : MemDB := ⟨db.db.insert key value⟩

def SetNoLock (db : MemDB) (key value : Bytes) : MemDB := db.SetNoLockSync key value

def SetSync (db : MemDB) (key value : Bytes) : MemDB := db.SetNoLock key value

def DeleteNoLockSync (db : MemDB) (key : Bytes) : MemDB := ⟨db.db.erase key⟩

def DeleteNoLock (db : MemDB) (key : Bytes) : MemDB := db.DeleteNoLockSync key

def DeleteSync (db : MemDB) (key : Bytes) : MemDB := db.DeleteNoLock key

theorem Get_Set (db : MemDB) (key value k : Bytes) :
    (db.Set key value).Get k = if k = key then some value else db.Get k := by
  by_cases h : k = key
  · subst h
    simp [Get, Set]
  · simp [Get, Set, h, AList.lookup_insert_ne h]

theorem Get_Delete (db : MemDB) (key k : Bytes) :
    (db.Delete key).Get k = if k = key then none else db.Get k := by
  by_cases h : k = key
  · subst h
    simp [Get, Delete]
  · simp [Get, Delete, h, AList.lookup_erase_ne h]

def sortStrings (keys : List Bytes) : List Bytes := sortSort bytesLess keys

/-- One round of the loop of `getSortedKeys` that reverses the keys in place: `keys[i]` and
`keys[nkeys-i-1]` are swapped. -/
def swapEnds (nkeys : Nat) (keys : List Bytes) (i : Nat) : List Bytes :=
  let temp := keys[i]!
  let keys := keys.set i keys[nkeys - i - 1]!
  keys.set (nkeys - i - 1) temp

/-- The reversing loop: `swapEnds` for `i < nkeys/2`. -/
def reverseKeys (keys : List Bytes) : List Bytes :=
  (List.range (keys.length / 2)).foldl (swapEnds keys.length) keys

/-- `db.getSortedKeys(start, end, reverse)`. The map's `range` order is the runtime's; the keys
are distinct and sorted afterwards, so the result does not depend on it. -/
def getSortedKeys (db : MemDB) (start : Bytes) (end' : Option Bytes) (reverse : Bool) :
    List Bytes :=
  let keys := db.db.keys.filter fun key => IsKeyInDomain key start end'
  let keys := sortStrings keys
  if reverse then reverseKeys keys else keys

end MemDB

/-- `memDBIterator`: the store it reads values from, the cursor and the copied keys. -/
structure memDBIterator where
  db : MemDB
  cur : Nat
  keys : List Bytes
  (start : Bytes) (end' : Option Bytes)

def newMemDBIterator (db : MemDB) (keys : List Bytes) (start : Bytes) (end' : Option Bytes) :
    memDBIterator := ⟨db, 0, keys, start, end'⟩

namespace MemDB

def Iterator (db : MemDB) (start : Bytes) (end' : Option Bytes) : memDBIterator :=
  newMemDBIterator db (db.getSortedKeys start end' false) start end'

def ReverseIterator (db : MemDB) (start : Bytes) (end' : Option Bytes) : memDBIterator :=
  newMemDBIterator db (db.getSortedKeys start end' true) start end'

end MemDB

namespace memDBIterator

def Domain (itr : memDBIterator) : Bytes × Option Bytes := (itr.start, itr.end')

def Valid (itr : memDBIterator) : Bool := decide (itr.cur < itr.keys.length)

def assertIsValid (itr : memDBIterator) : Result Unit :=
  if itr.Valid then .ok () else .panic "memDBIterator is invalid"

def Next (itr : memDBIterator) : Result memDBIterator := do
  itr.assertIsValid
  pure { itr with cur := itr.cur + 1 }

def Key (itr : memDBIterator) : Result Bytes := do
  itr.assertIsValid
  index itr.keys itr.cur

/-- `itr.Value()`: the store's value under the current key. -/
def Value (itr : memDBIterator) : Result (Option Bytes) := do
  itr.assertIsValid
  let key ← index itr.keys itr.cur
  pure (itr.db.Get key)

/-- The methods of `memDBIterator`. -/
def methods : Db.Iterator memDBIterator := ⟨Valid, Next, Key, Value⟩

section OnKey
variable {itr : memDBIterator} (h : itr.cur < itr.keys.length)
include h

theorem Valid_of_lt : itr.Valid = true := by simp [Valid, h]

theorem Key_of_lt : itr.Key = .ok itr.keys[itr.cur] := by
  simp [Key, assertIsValid, Valid_of_lt h, index_of_lt h]

theorem Value_of_lt : itr.Value = .ok (itr.db.Get itr.keys[itr.cur]) := by
  simp [Value, assertIsValid, Valid_of_lt h, index_of_lt h]

theorem Next_of_lt : itr.Next = .ok { itr with cur := itr.cur + 1 } := by
  simp [Next, assertIsValid, Valid_of_lt h]

end OnKey

theorem pairs_methods (fuel : Nat) (itr : memDBIterator) (hfuel : itr.keys.length - itr.cur < fuel) :
    methods.pairs fuel itr = .ok ((itr.keys.drop itr.cur).map fun k => (k, itr.db.Get k)) := by
  induction fuel generalizing itr with
  | zero => omega
  | succ fuel ih =>
    by_cases hv : itr.cur < itr.keys.length
    · have hrest := ih { itr with cur := itr.cur + 1 } (by simp only; omega)
      simp only [methods] at hrest ⊢
      simp only [Iterator.pairs, Valid_of_lt hv, if_true, Key_of_lt hv, Value_of_lt hv,
        Next_of_lt hv, Result.ok_bind, Result.pure_eq, hrest]
      rw [List.drop_eq_getElem_cons hv, List.map_cons]
    · have hvalid : itr.Valid = false := by simp [Valid, hv]
      simp [Iterator.pairs, methods, hvalid, List.drop_eq_nil_of_le (Nat.le_of_not_lt hv)]

end memDBIterator

namespace MemDB

theorem swapEnds_spec {keys acc : List Bytes} {m : Nat} (hm : m + 1 ≤ keys.length / 2)
    (hlen : acc.length = keys.length)
    (hacc : ∀ j, acc[j]? = if j < m ∨ keys.length - m ≤ j then keys.reverse[j]? else keys[j]?) :
    (swapEnds keys.length acc m).length = keys.length ∧
    ∀ j, (swapEnds keys.length acc m)[j]? =
      if j < m + 1 ∨ keys.length - (m + 1) ≤ j then keys.reverse[j]? else keys[j]? := by
  -- the two cells swapped still hold their first values
  have hlo : some acc[m]! = keys[m]? := by
    rw [List.getElem!_eq_getElem?_getD, hacc m, if_neg (by omega),
      List.getElem?_eq_getElem (by omega)]
    rfl
  have hhi : some acc[keys.length - m - 1]! = keys[keys.length - m - 1]? := by
    rw [List.getElem!_eq_getElem?_getD, hacc, if_neg (by omega),
      List.getElem?_eq_getElem (by omega)]
    rfl
  refine ⟨by simp [swapEnds, hlen], fun j => ?_⟩
  simp only [swapEnds, List.getElem?_set, List.length_set, hlen]
  by_cases hj₁ : keys.length - m - 1 = j
  · subst hj₁
    rw [if_pos rfl, if_pos (by omega), if_pos (by omega), hlo,
      List.getElem?_reverse' (j := m) (by omega)]
  · rw [if_neg hj₁]
    by_cases hj₂ : m = j
    · subst hj₂
      rw [if_pos rfl, if_pos (by omega), if_pos (by omega), hhi,
        List.getElem?_reverse' (j := keys.length - m - 1) (by omega)]
    · rw [if_neg hj₂, hacc j]
      by_cases hj : j < m ∨ keys.length - m ≤ j
      · rw [if_pos hj, if_pos (by omega)]
      · rw [if_neg hj, if_neg (by omega)]

theorem reverseKeys_eq (keys : List Bytes) : reverseKeys keys = keys.reverse := by
  -- after `m` rounds the first `m` and the last `m` cells are reversed
  have hrun : ∀ m, m ≤ keys.length / 2 →
      ((List.range m).foldl (swapEnds keys.length) keys).length = keys.length ∧
      ∀ j, ((List.range m).foldl (swapEnds keys.length) keys)[j]? =
        if j < m ∨ keys.length - m ≤ j then keys.reverse[j]? else keys[j]? := by
    intro m
    induction m with
    | zero =>
      intro _
      refine ⟨rfl, fun j => ?_⟩
      by_cases hj : keys.length ≤ j
      · rw [if_pos (by omega), List.getElem?_eq_none (by simpa using hj),
          List.getElem?_eq_none (by simpa using hj)]
      · rw [if_neg (by omega)]
        rfl
    | succ m ih =>
      intro hm
      obtain ⟨hlen, hacc⟩ := ih (by omega)
      rw [List.range_succ, List.foldl_append, List.foldl_cons, List.foldl_nil]
      exact swapEnds_spec hm hlen hacc
  obtain ⟨-, hacc⟩ := hrun (keys.length / 2) le_rfl
  apply List.ext_getElem?
  intro j
  rw [reverseKeys, hacc j]
  split
  · rfl
  · -- the middle cell of an odd length is its own mirror
    rw [List.getElem?_reverse' (j := j) (by omega)]

theorem getSortedKeys_false (db : MemDB) (start : Bytes) (end' : Option Bytes) :
    db.getSortedKeys start end' false =
      sortStrings (db.db.keys.filter fun key => IsKeyInDomain key start end') := rfl

theorem getSortedKeys_true (db : MemDB) (start : Bytes) (end' : Option Bytes) :
    db.getSortedKeys start end' true = (db.getSortedKeys start end' false).reverse := by
  rw [getSortedKeys_false, getSortedKeys, if_pos rfl, reverseKeys_eq]

theorem mem_getSortedKeys {db : MemDB} {start : Bytes} {end' : Option Bytes} {k : Bytes} :
    k ∈ db.getSortedKeys start end' false ↔
      (db.Get k).isSome ∧ IsKeyInDomain k start end' = true := by
  rw [getSortedKeys_false, sortStrings, (sortSort_perm _ _).mem_iff, List.mem_filter,
    ← AList.mem_keys, Get, AList.lookup_isSome]

theorem getSortedKeys_sorted (db : MemDB) (start : Bytes) (end' : Option Bytes) :
    (db.getSortedKeys start end' false).Pairwise (fun a b => bytesCompare a b = -1) := by
  have hnd : (db.getSortedKeys start end' false).Nodup := by
    rw [getSortedKeys_false, sortStrings, (sortSort_perm _ _).nodup_iff]
    exact db.db.keys_nodup.filter _
  have hle := sortSort_pairwise bytesLess_irrefl bytesLess_trans bytesLess_total
    (db.db.keys.filter fun key => IsKeyInDomain key start end')
  rw [← sortStrings, ← getSortedKeys_false] at hle
  exact (hle.and hnd).imp fun h => bytesCompare_lt_of_not_less h.1 h.2

theorem length_getSortedKeys_le (db : MemDB) (start : Bytes) (end' : Option Bytes) :
    (db.getSortedKeys start end' false).length ≤ len db.db := by
  rw [getSortedKeys_false, sortStrings, (sortSort_perm _ _).length_eq]
  calc (db.db.keys.filter _).length ≤ db.db.keys.length := (List.filter_sublist).length_le
    _ = len db.db := by simp [AList.keys, List.keys, len]

theorem pairs_Iterator (db : MemDB) (start : Bytes) (end' : Option Bytes) {fuel : Nat}
    (hfuel : len db.db < fuel) :
    memDBIterator.methods.pairs fuel (db.Iterator start end') =
      .ok ((db.getSortedKeys start end' false).map fun k => (k, db.Get k)) := by
  have := length_getSortedKeys_le db start end'
  exact memDBIterator.pairs_methods fuel _ (by simp only [Iterator, newMemDBIterator]; omega)

theorem pairs_ReverseIterator (db : MemDB) (start : Bytes) (end' : Option Bytes) {fuel : Nat}
    (hfuel : len db.db < fuel) :
    memDBIterator.methods.pairs fuel (db.ReverseIterator start end') =
      .ok ((db.getSortedKeys start end' false).reverse.map fun k => (k, db.Get k)) := by
  have := length_getSortedKeys_le db start end'
  rw [← getSortedKeys_true]
  refine memDBIterator.pairs_methods fuel _ ?_
  simp only [ReverseIterator, newMemDBIterator, getSortedKeys_true, List.length_reverse]
  omega

/-- The two iterators of a domain yield its stored keys, each once, with their values: the forward
one in ascending order, the reverse one in descending order. -/
theorem iterators_exact (db : MemDB) (start : Bytes) (end' : Option Bytes) {fuel : Nat}
    (hfuel : len db.db < fuel) :
    ∃ keys : List Bytes,
      (∀ k, k ∈ keys ↔ (db.Get k).isSome = true ∧ IsKeyInDomain k start end' = true) ∧
      keys.Pairwise (fun a b => bytesCompare a b = -1) ∧
      memDBIterator.methods.pairs fuel (db.Iterator start end') =
        .ok (keys.map fun k => (k, db.Get k)) ∧
      memDBIterator.methods.pairs fuel (db.ReverseIterator start end') =
        .ok (keys.reverse.map fun k => (k, db.Get k)) :=
  ⟨_, fun _ => mem_getSortedKeys, getSortedKeys_sorted db start end', pairs_Iterator db start end' hfuel,
    pairs_ReverseIterator db start end' hfuel⟩

/-- Four keys, of which the domain `[[0x02], [0x04])` holds two. -/
theorem iterators_exact_four :
    let db := (((NewMemDB.Set [0x01] [0x07]).Set [0x04, 0x00] [0x0A]).Set [0x03] [0x09]).Set
      [0x02] [0x08]
    len db.db < 5 ∧ ∃ keys : List Bytes,
      (∀ k, k ∈ keys ↔ (db.Get k).isSome = true ∧ IsKeyInDomain k [0x02] (some [0x04]) = true) ∧
      keys.Pairwise (fun a b => bytesCompare a b = -1) ∧
      memDBIterator.methods.pairs 5 (db.Iterator [0x02] (some [0x04])) =
        .ok (keys.map fun k => (k, db.Get k)) ∧
      memDBIterator.methods.pairs 5 (db.ReverseIterator [0x02] (some [0x04])) =
        .ok (keys.reverse.map fun k => (k, db.Get k)) :=
  ⟨by decide, iterators_exact _ [0x02] (some [0x04]) (by decide)⟩

end MemDB

end Dgrid.Db
