import Dgrid.Db.MemBatch

/-! The prefix view of a store (prefix_db.go) and the key helpers of util.go. A `prefixDB`
reads and writes the keys of its store under its prefix; its iterators translate the domain
`[start, end)` into the store's, with `cpIncr` of the prefix as the bound when `end` is nil,
and strip the prefix from the store iterator's keys until the first key without it. The store
is a `MemDB`; the mutex, `Close`, `Print` and `Stats` are left out. -/

namespace Dgrid.Db

open Go GoMap

/-- `cp(bz)`: `copy` into a fresh slice of the same length. -/
def cp (bz : Bytes) : Bytes := Go.copy (List.replicate bz.length 0) bz

@[simp] theorem cp_eq (bz : Bytes) : cp bz = bz := by
  simp [cp, Go.copy]

/-- The loop of `cpIncr`, at `i = n - 1` down to `0`; `none` is `nil`. -/
def cpIncrLoop (ret : Bytes) : Nat → Option Bytes
  | 0 => none
  | i + 1 =>
    if ret[i]! < 0xFF then some (ret.set i (ret[i]! + 1))
    else
      let ret := ret.set i 0x00
      if i = 0 then none else cpIncrLoop ret i

def cpIncr (bz : Bytes) : Result (Option Bytes) :=
  if bz.length = 0 then .panic "cpIncr expects non-zero bz length"
  else .ok (cpIncrLoop (cp bz) bz.length)

theorem set_replicate_append {v w : UInt8} (j : Nat) (z : Bytes) :
    (List.replicate (j + 1) v ++ z).set j w = List.replicate j v ++ w :: z := by
  rw [List.replicate_succ', List.append_assoc, List.set_append_right _ _ (by simp)]
  simp

theorem cpIncrLoop_carry (a : Bytes) {x : UInt8} (hx : x < 0xFF) (j k : Nat) :
    cpIncrLoop (a ++ x :: (List.replicate j 0xFF ++ List.replicate k 0x00)) (a.length + 1 + j) =
      some (a ++ (x + 1) :: List.replicate (j + k) 0x00) := by
  induction j generalizing k with
  | zero =>
    have hget : (a ++ x :: (List.replicate 0 0xFF ++ List.replicate k 0x00))[a.length]! = x := by
      simp
    rw [Nat.add_zero, cpIncrLoop, hget, if_pos hx, List.set_append_right _ _ (le_refl _)]
    simp
  | succ j ih =>
    have hget : (a ++ x :: (List.replicate (j + 1) 0xFF ++ List.replicate k 0x00))[a.length + 1 + j]!
        = 0xFF := by
      rw [List.getElem!_eq_getElem?_getD, List.getElem?_append_right (by omega),
        show a.length + 1 + j - a.length = j + 1 by omega, List.getElem?_cons_succ,
        List.getElem?_append_left (by simp)]
      simp
    have hset : (a ++ x :: (List.replicate (j + 1) 0xFF ++ List.replicate k 0x00)).set
        (a.length + 1 + j) 0x00 = a ++ x :: (List.replicate j 0xFF ++ List.replicate (k + 1) 0x00) := by
      rw [List.set_append_right _ _ (by omega), show a.length + 1 + j - a.length = j + 1 by omega,
        List.set_cons_succ, set_replicate_append, List.replicate_succ]
    rw [show a.length + 1 + (j + 1) = a.length + 1 + j + 1 by omega, cpIncrLoop, hget,
      if_neg (UInt8.lt_irrefl _), hset, if_neg (by omega), ih]
    rw [show j + (k + 1) = j + 1 + k by omega]

theorem cpIncrLoop_replicate (j k : Nat) :
    cpIncrLoop (List.replicate j 0xFF ++ List.replicate k 0x00) j = none := by
  induction j generalizing k with
  | zero => rfl
  | succ j ih =>
    have hget : (List.replicate (j + 1) (0xFF : UInt8) ++ List.replicate k 0x00)[j]! = 0xFF := by
      rw [List.getElem!_eq_getElem?_getD, List.getElem?_append_left (by simp)]
      simp
    rw [cpIncrLoop, hget, if_neg (UInt8.lt_irrefl _), set_replicate_append, ← List.replicate_succ]
    by_cases hj : j = 0
    · rw [if_pos hj]
    · rw [if_neg hj, ih]

theorem cpIncr_replicate {n : Nat} (hn : n ≠ 0) : cpIncr (List.replicate n 0xFF) = .ok none := by
  have h := cpIncrLoop_replicate n 0
  rw [List.replicate_zero, List.append_nil] at h
  rw [cpIncr, List.length_replicate, if_neg hn, cp_eq, h]

theorem cpIncr_carry (a : Bytes) {x : UInt8} (hx : x < 0xFF) (m : Nat) :
    cpIncr (a ++ x :: List.replicate m 0xFF) = .ok (some (a ++ (x + 1) :: List.replicate m 0x00)) := by
  have h := cpIncrLoop_carry a hx m 0
  rw [List.replicate_zero, List.append_nil] at h
  have hlen : (a ++ x :: List.replicate m 0xFF).length = a.length + 1 + m := by simp; omega
  rw [cpIncr, hlen, if_neg (by omega), cp_eq, h, Nat.add_zero]

theorem IsKeyInDomain_cpIncr {pre : Bytes} (hp : pre ≠ []) {r : Option Bytes}
    (hr : cpIncr pre = .ok r) (k s : Bytes) :
    IsKeyInDomain (pre ++ k) (pre ++ s) r = IsKeyInDomain k s none := by
  rcases eq_replicate_or_carry pre with ⟨n, rfl⟩ | ⟨a, x, m, hx, rfl⟩
  · rw [cpIncr_replicate (by rintro rfl; exact hp rfl)] at hr
    cases hr
    simp [IsKeyInDomain]
  · rw [cpIncr_carry a hx m] at hr
    cases hr
    simp only [IsKeyInDomain, bytesCompare_append_left]
    -- after the common `a`, the bound's byte `x + 1` is above the key's `x`
    simp [bytesCompare_cons_gt (lt_add_one_of_lt_ff hx)]

theorem IsKeyInDomain_append (pre k s e : Bytes) :
    IsKeyInDomain (pre ++ k) (pre ++ s) (some (pre ++ e)) = IsKeyInDomain k s (some e) := by
  simp [IsKeyInDomain]

/-! ### The view -/

/-- `prefixDB`: the store and the prefix of its keys that the view holds. -/
structure prefixDB where
  pre : Bytes
  db : MemDB

def NewPrefixDB (db : MemDB) (pre : Bytes) : prefixDB := ⟨pre, db⟩

namespace prefixDB

def prefixed (pdb : prefixDB) (key : Bytes) : Bytes := cp pdb.pre ++ key

def Get (pdb : prefixDB) (key : Bytes) : Option Bytes := pdb.db.Get (pdb.prefixed key)

def Has (pdb : prefixDB) (key : Bytes) : Bool := pdb.db.Has (pdb.prefixed key)

def Set (pdb : prefixDB) (key value : Bytes) : prefixDB :=
  { pdb with db := pdb.db.Set (pdb.prefixed key) value }

def Delete (pdb : prefixDB) (key : Bytes) : prefixDB :=
  { pdb with db := pdb.db.Delete (pdb.prefixed key) }

end prefixDB

/-- `prefixIterator`: the source iterator, the domain it was asked for, and whether the
source still stands on a key with the prefix. -/
structure prefixIterator (ι : Type) where
  pre : Bytes
  (start : Bytes) (end' : Option Bytes)
  source : ι
  valid : Bool

def stripPrefix (key pre : Bytes) : Result Bytes :=
  if key.length < pre.length then .panic "should not happen"
  else if key.take pre.length != pre then .panic "should not happne"
  else .ok (key.drop pre.length)

section Methods
variable {ι : Type} (S : Iterator ι)

def newPrefixIterator (pre start : Bytes) (end' : Option Bytes) (source : ι) :
    Result (prefixIterator ι) :=
  if !S.Valid source then .ok ⟨pre, start, end', source, false⟩
  else do
    let key ← S.Key source
    if !HasPrefix key pre then pure ⟨pre, start, end', source, false⟩
    else pure ⟨pre, start, end', source, true⟩

namespace prefixIterator

def Domain (itr : prefixIterator ι) : Bytes × Option Bytes := (itr.start, itr.end')

def Valid (itr : prefixIterator ι) : Bool := itr.valid && S.Valid itr.source

def Next (itr : prefixIterator ι) : Result (prefixIterator ι) :=
  if !itr.valid then .panic "prefixIterator invalid, cannot call Next()"
  else do
    let source ← S.Next itr.source
    if !S.Valid source then pure { itr with source, valid := false }
    else do
      let key ← S.Key source
      if !HasPrefix key itr.pre then pure { itr with source, valid := false }
      else pure { itr with source }

def Key (itr : prefixIterator ι) : Result Bytes :=
  if !itr.valid then .panic "prefixIterator invalid, cannot call Key()"
  else do
    let key ← S.Key itr.source
    stripPrefix key itr.pre

def Value (itr : prefixIterator ι) : Result (Option Bytes) :=
  if !itr.valid then .panic "prefixIterator invalid, cannot call Value()"
  else S.Value itr.source

/-- The methods of `prefixIterator` over a source with methods `S`. -/
def methods : Iterator (prefixIterator ι) := ⟨Valid S, Next S, Key S, Value S⟩

end prefixIterator

end Methods

namespace prefixDB

/-- The body `Iterator` and `ReverseIterator` share: the store's domain for `[start, end)`,
and the prefix iterator over the store iterator `source` opens on it. -/
def openIterator (pdb : prefixDB) (source : MemDB → Bytes → Option Bytes → memDBIterator)
    (start : Bytes) (end' : Option Bytes) : Result (prefixIterator memDBIterator) := do
  let pstart := cp pdb.pre ++ start
  let pend ← match end' with
    | none => cpIncr pdb.pre
    | some e => pure (some (cp pdb.pre ++ e))
  newPrefixIterator memDBIterator.methods pdb.pre start end' (source pdb.db pstart pend)

def Iterator (pdb : prefixDB) (start : Bytes) (end' : Option Bytes) :
    Result (prefixIterator memDBIterator) :=
  pdb.openIterator MemDB.Iterator start end'

def ReverseIterator (pdb : prefixDB) (start : Bytes) (end' : Option Bytes) :
    Result (prefixIterator memDBIterator) :=
  pdb.openIterator MemDB.ReverseIterator start end'

end prefixDB

/-! ### The prefix iterator over a store iterator -/

namespace prefixIterator

theorem Next_eq_newPrefixIterator {ι : Type} (S : Iterator ι) {itr : prefixIterator ι}
    (hv : itr.valid = true) :
    Next S itr = S.Next itr.source >>= newPrefixIterator S itr.pre itr.start itr.end' := by
  obtain ⟨pre, start, end', source, valid⟩ := itr
  subst hv
  simp only [Next, Bool.not_true, Bool.false_eq_true, if_false]
  rfl

theorem stripPrefix_of_HasPrefix {key pre : Bytes} (h : HasPrefix key pre = true) :
    stripPrefix key pre = .ok (key.drop pre.length) := by
  rw [HasPrefix, Bool.and_eq_true, decide_eq_true_iff, beq_iff_eq] at h
  simp [stripPrefix, h.1, h.2]

/-- The states `newPrefixIterator` and `Next` leave over a store iterator: valid exactly when
the source stands on a key with the prefix. -/
def synced (pre start : Bytes) (end' : Option Bytes) (src : memDBIterator) :
    prefixIterator memDBIterator :=
  ⟨pre, start, end', src, src.Valid && HasPrefix src.keys[src.cur]! pre⟩

theorem newPrefixIterator_methods (pre start : Bytes) (end' : Option Bytes) (src : memDBIterator) :
    newPrefixIterator memDBIterator.methods pre start end' src = .ok (synced pre start end' src) := by
  by_cases h : src.cur < src.keys.length
  · have hk : src.keys[src.cur]! = src.keys[src.cur] := getElem!_pos src.keys src.cur h
    simp only [newPrefixIterator, memDBIterator.methods, memDBIterator.Valid_of_lt h,
      memDBIterator.Key_of_lt h, synced, hk, Bool.not_true, Bool.true_and, Result.ok_bind]
    cases HasPrefix src.keys[src.cur] pre <;> rfl
  · have hv : src.Valid = false := by simp [memDBIterator.Valid, h]
    simp [newPrefixIterator, memDBIterator.methods, synced, hv]

section OnKey
variable {pre start : Bytes} {end' : Option Bytes} {src : memDBIterator}
  (h : src.cur < src.keys.length) (hp : HasPrefix src.keys[src.cur] pre = true)
include h hp

theorem valid_synced : (synced pre start end' src).valid = true := by
  simp [synced, memDBIterator.Valid_of_lt h, getElem!_pos src.keys src.cur h, hp]

theorem Next_synced : Next memDBIterator.methods (synced pre start end' src) =
    .ok (synced pre start end' { src with cur := src.cur + 1 }) := by
  rw [Next_eq_newPrefixIterator _ (valid_synced h hp)]
  exact newPrefixIterator_methods pre start end' { src with cur := src.cur + 1 } ▸
    (congrArg (· >>= _) (memDBIterator.Next_of_lt h)).trans (Result.ok_bind _ _)

theorem Key_synced : Key memDBIterator.methods (synced pre start end' src) =
    .ok (src.keys[src.cur].drop pre.length) := by
  rw [Key, valid_synced h hp, Bool.not_true, if_neg Bool.false_ne_true]
  simp only [synced, memDBIterator.methods, memDBIterator.Key_of_lt h, Result.ok_bind,
    stripPrefix_of_HasPrefix hp]

theorem Value_synced : Value memDBIterator.methods (synced pre start end' src) =
    .ok (src.db.Get src.keys[src.cur]) := by
  rw [Value, valid_synced h hp, Bool.not_true, if_neg Bool.false_ne_true]
  exact memDBIterator.Value_of_lt h

end OnKey

theorem pairs_synced (fuel : Nat) (pre start : Bytes) (end' : Option Bytes) (src : memDBIterator)
    (hfuel : src.keys.length - src.cur < fuel) :
    (methods memDBIterator.methods).pairs fuel (synced pre start end' src) =
      .ok (((src.keys.drop src.cur).takeWhile fun k => HasPrefix k pre).map
        fun k => (k.drop pre.length, src.db.Get k)) := by
  induction fuel generalizing src with
  | zero => omega
  | succ fuel ih =>
    by_cases h : src.cur < src.keys.length
    · rw [List.drop_eq_getElem_cons h]
      cases hp : HasPrefix src.keys[src.cur] pre with
      | true =>
        have hrest := ih { src with cur := src.cur + 1 } (by simp only; omega)
        have hv : Valid memDBIterator.methods (synced pre start end' src) = true := by
          rw [Valid, valid_synced h hp]
          exact memDBIterator.Valid_of_lt h
        simp only [Iterator.pairs, methods, hv, if_true, Key_synced h hp, Value_synced h hp,
          Next_synced h hp, Result.ok_bind, Result.pure_eq]
        simp only [methods] at hrest
        rw [hrest, List.takeWhile_cons_of_pos (p := fun k => HasPrefix k pre) hp, List.map_cons]
        rfl
      | false =>
        have hv : (methods memDBIterator.methods).Valid (synced pre start end' src) = false := by
          simp [methods, Valid, synced, getElem!_pos src.keys src.cur h, hp]
        rw [List.takeWhile_cons_of_neg (by simp [hp])]
        simp [Iterator.pairs, hv]
    · have hv : (methods memDBIterator.methods).Valid (synced pre start end' src) = false := by
        simp [methods, Valid, synced, memDBIterator.Valid, h]
      rw [List.drop_eq_nil_of_le (Nat.le_of_not_lt h)]
      simp [Iterator.pairs, hv]

theorem pairs_of_invalid {ι : Type} (S : Iterator ι) {itr : prefixIterator ι}
    (h : itr.valid = false) (fuel : Nat) : (methods S).pairs fuel itr = .ok [] := by
  cases fuel <;> simp [Iterator.pairs, methods, Valid, h]

end prefixIterator

/-! ### What the iterators yield -/

/-- The pairs the view holds over `[start, end)`: `k` is in the view when `pre ++ k` is stored
and `k` is in the domain. -/
def InView (db : MemDB) (pre start : Bytes) (end' : Option Bytes) (k : Bytes) : Bool :=
  (db.Get (pre ++ k)).isSome && IsKeyInDomain k start end'

theorem cpIncr_ok {pre : Bytes} (hp : pre ≠ []) : ∃ r, cpIncr pre = .ok r :=
  ⟨_, if_neg (by simpa using hp)⟩

namespace prefixDB

theorem openIterator_some (pdb : prefixDB) (source : MemDB → Bytes → Option Bytes → memDBIterator)
    (start e : Bytes) :
    pdb.openIterator source start (some e) = .ok (prefixIterator.synced pdb.pre start (some e)
      (source pdb.db (pdb.pre ++ start) (some (pdb.pre ++ e)))) := by
  simp [openIterator, prefixIterator.newPrefixIterator_methods]

theorem openIterator_none (pdb : prefixDB) (source : MemDB → Bytes → Option Bytes → memDBIterator)
    (start : Bytes) {r : Option Bytes} (hr : cpIncr pdb.pre = .ok r) :
    pdb.openIterator source start none = .ok (prefixIterator.synced pdb.pre start none
      (source pdb.db (pdb.pre ++ start) r)) := by
  simp [openIterator, hr, prefixIterator.newPrefixIterator_methods]

theorem openIterator_domain (pdb : prefixDB) (hp : pdb.pre ≠ [])
    (source : MemDB → Bytes → Option Bytes → memDBIterator) (start : Bytes) (end' : Option Bytes) :
    ∃ pend, (∀ k, IsKeyInDomain (pdb.pre ++ k) (pdb.pre ++ start) pend = IsKeyInDomain k start end') ∧
      pdb.openIterator source start end' = .ok (prefixIterator.synced pdb.pre start end'
        (source pdb.db (pdb.pre ++ start) pend)) := by
  cases end' with
  | none =>
    obtain ⟨r, hr⟩ := cpIncr_ok hp
    exact ⟨r, fun k => IsKeyInDomain_cpIncr hp hr k start, openIterator_none pdb source start hr⟩
  | some e =>
    exact ⟨_, fun k => IsKeyInDomain_append pdb.pre k start e, openIterator_some pdb source start e⟩

end prefixDB

section Strip
variable (db : MemDB) (pre : Bytes) (K : List Bytes)

theorem map_strip :
    ((K.filter fun k => HasPrefix k pre).map fun k => (k.drop pre.length, db.Get k)) =
      ((K.filter fun k => HasPrefix k pre).map (·.drop pre.length)).map
        fun k => (k, db.Get (pre ++ k)) := by
  rw [List.map_map]
  apply List.map_congr_left
  intro q hq
  rw [Function.comp_apply, append_drop_of_HasPrefix (List.mem_filter.mp hq).2]

theorem mem_strip {k : Bytes} :
    k ∈ (K.filter fun k => HasPrefix k pre).map (·.drop pre.length) ↔ pre ++ k ∈ K := by
  constructor
  · intro hk
    obtain ⟨q, hq, rfl⟩ := List.mem_map.mp hk
    obtain ⟨hqK, hqp⟩ := List.mem_filter.mp hq
    rwa [append_drop_of_HasPrefix hqp]
  · intro hk
    refine List.mem_map.mpr ⟨pre ++ k, List.mem_filter.mpr ⟨hk, ?_⟩, List.drop_left⟩
    exact HasPrefix_iff.mpr (List.prefix_append pre k)

theorem sorted_strip (hK : K.Pairwise fun a b => bytesCompare a b = -1) :
    ((K.filter fun k => HasPrefix k pre).map (·.drop pre.length)).Pairwise
      fun a b => bytesCompare a b = -1 := by
  rw [List.pairwise_map]
  refine (hK.filter _).imp_of_mem fun ha hb hab => ?_
  rw [← bytesCompare_append_left pre, append_drop_of_HasPrefix (List.mem_filter.mp ha).2,
    append_drop_of_HasPrefix (List.mem_filter.mp hb).2]
  exact hab

end Strip

theorem getSortedKeys_block (db : MemDB) (pre start : Bytes) (pend : Option Bytes) :
    (db.getSortedKeys (pre ++ start) pend false).Pairwise
      fun a b => HasPrefix b pre = true → HasPrefix a pre = true := by
  refine (MemDB.getSortedKeys_sorted db _ pend).imp_of_mem ?_
  intro a b ha _ hab hb
  have hstart := (IsKeyInDomain_iff.mp (MemDB.mem_getSortedKeys.mp ha).2).1
  exact HasPrefix_of_lt hstart hab hb

theorem takeWhile_eq_filter_of_pairwise {α : Type} {P : α → Bool} {l : List α}
    (h : l.Pairwise fun a b => P b = true → P a = true) : l.takeWhile P = l.filter P := by
  induction l with
  | nil => rfl
  | cons a t ih =>
    rw [List.pairwise_cons] at h
    cases ha : P a with
    | true => rw [List.takeWhile_cons_of_pos ha, List.filter_cons_of_pos ha, ih h.2]
    | false =>
      rw [List.takeWhile_cons_of_neg (by simp [ha]), List.filter_cons_of_neg (by simp [ha])]
      -- nothing after a key without the prefix has it
      refine (List.filter_eq_nil_iff.mpr fun b hb hPb => ?_).symm
      rw [h.1 b hb hPb] at ha
      cases ha

/-- A store holding the keys `[0x01, 0x02]` and `[0x02]`. -/
def twoKeyStore : MemDB := (MemDB.NewMemDB.Set [0x01, 0x02] [0x07]).Set [0x02] [0x08]

/-- The forward iterator of the view yields the pairs of the view in ascending order of keys. -/
theorem Iterator_exact (db : MemDB) {pre : Bytes} (hp : pre ≠ []) (start : Bytes)
    (end' : Option Bytes) {fuel : Nat} (hfuel : len db.db < fuel) :
    ∃ itr, ∃ keys : List Bytes, (NewPrefixDB db pre).Iterator start end' = .ok itr ∧
      (prefixIterator.methods memDBIterator.methods).pairs fuel itr =
        .ok (keys.map fun k => (k, db.Get (pre ++ k))) ∧
      (∀ k, k ∈ keys ↔ InView db pre start end' k = true) ∧
      keys.Pairwise fun a b => bytesCompare a b = -1 := by
  obtain ⟨pend, hdom, hopen⟩ := (NewPrefixDB db pre).openIterator_domain hp MemDB.Iterator start end'
  dsimp only [NewPrefixDB] at hdom hopen
  set K := db.getSortedKeys (pre ++ start) pend false with hK
  have hlen := MemDB.length_getSortedKeys_le db (pre ++ start) pend
  refine ⟨_, (K.filter fun k => HasPrefix k pre).map (·.drop pre.length), hopen, ?_, ?_, ?_⟩
  · rw [prefixIterator.pairs_synced fuel _ _ _ _ (by simp only [MemDB.Iterator, newMemDBIterator]; omega)]
    simp only [MemDB.Iterator, newMemDBIterator, List.drop_zero]
    rw [← hK, takeWhile_eq_filter_of_pairwise (getSortedKeys_block db pre start pend), map_strip]
  · intro k
    rw [mem_strip, hK, MemDB.mem_getSortedKeys, hdom, InView, Bool.and_eq_true]
  · exact sorted_strip pre K (MemDB.getSortedKeys_sorted db _ pend)

theorem Iterator_exact_twoKeys :
    ([0x01, 0xFF] : Bytes) ≠ [] ∧ len twoKeyStore.db < 3 ∧
    ∃ itr, ∃ keys : List Bytes, (NewPrefixDB twoKeyStore [0x01, 0xFF]).Iterator [] none = .ok itr ∧
      (prefixIterator.methods memDBIterator.methods).pairs 3 itr =
        .ok (keys.map fun k => (k, twoKeyStore.Get ([0x01, 0xFF] ++ k))) ∧
      (∀ k, k ∈ keys ↔ InView twoKeyStore [0x01, 0xFF] [] none k = true) ∧
      keys.Pairwise fun a b => bytesCompare a b = -1 :=
  ⟨by decide, by decide, Iterator_exact twoKeyStore (by decide) [] none (by decide)⟩

theorem HasPrefix_of_mem_getSortedKeys {db : MemDB} {pre start e q : Bytes}
    (hq : q ∈ db.getSortedKeys (pre ++ start) (some (pre ++ e)) false) : HasPrefix q pre = true := by
  obtain ⟨hs, he⟩ := IsKeyInDomain_iff.mp (MemDB.mem_getSortedKeys.mp hq).2
  exact HasPrefix_iff.mpr (prefix_of_between hs (he _ rfl))

/-- With `end` given, the reverse iterator of the view yields the pairs of the view in
descending order of keys. -/
theorem ReverseIterator_exact (db : MemDB) (pre start e : Bytes) {fuel : Nat}
    (hfuel : len db.db < fuel) :
    ∃ itr, ∃ keys : List Bytes, (NewPrefixDB db pre).ReverseIterator start (some e) = .ok itr ∧
      (prefixIterator.methods memDBIterator.methods).pairs fuel itr =
        .ok (keys.map fun k => (k, db.Get (pre ++ k))) ∧
      (∀ k, k ∈ keys ↔ InView db pre start (some e) k = true) ∧
      keys.Pairwise fun a b => bytesCompare b a = -1 := by
  have hopen := (NewPrefixDB db pre).openIterator_some MemDB.ReverseIterator start e
  dsimp only [NewPrefixDB] at hopen
  set K := db.getSortedKeys (pre ++ start) (some (pre ++ e)) false with hK
  have hlen := MemDB.length_getSortedKeys_le db (pre ++ start) (some (pre ++ e))
  have hall : ∀ q ∈ K, HasPrefix q pre = true := fun q hq => HasPrefix_of_mem_getSortedKeys hq
  refine ⟨_, ((K.filter fun k => HasPrefix k pre).map (·.drop pre.length)).reverse, hopen, ?_, ?_, ?_⟩
  · rw [prefixIterator.pairs_synced fuel _ _ _ _ (by
      simp only [MemDB.ReverseIterator, newMemDBIterator, MemDB.getSortedKeys_true,
        List.length_reverse]
      omega)]
    simp only [MemDB.ReverseIterator, newMemDBIterator, List.drop_zero, MemDB.getSortedKeys_true]
    -- no key of the domain lacks the prefix, so the reverse walk never stops early
    have htw : K.reverse.takeWhile (fun k => HasPrefix k pre) =
        (K.filter fun k => HasPrefix k pre).reverse := by
      rw [List.takeWhile_eq_self_iff.mpr (fun q hq => hall q (List.mem_reverse.mp hq)),
        List.filter_eq_self.mpr hall]
    rw [← hK, htw, List.map_reverse, map_strip, List.map_reverse]
  · intro k
    rw [List.mem_reverse, mem_strip, hK, MemDB.mem_getSortedKeys, IsKeyInDomain_append, InView,
      Bool.and_eq_true]
  · exact List.pairwise_reverse.mpr (sorted_strip pre K (MemDB.getSortedKeys_sorted db _ _))

/-- The view of `[0x01]` over `twoKeyStore` holds `[0x02]`, which the domain `[[], [0x03])` takes;
the store's own key `[0x02]` lies outside the view. -/
theorem ReverseIterator_exact_twoKeys :
    len twoKeyStore.db < 3 ∧
    ∃ itr, ∃ keys : List Bytes,
      (NewPrefixDB twoKeyStore [0x01]).ReverseIterator [] (some [0x03]) = .ok itr ∧
      (prefixIterator.methods memDBIterator.methods).pairs 3 itr =
        .ok (keys.map fun k => (k, twoKeyStore.Get ([0x01] ++ k))) ∧
      (∀ k, k ∈ keys ↔ InView twoKeyStore [0x01] [] (some [0x03]) k = true) ∧
      keys.Pairwise fun a b => bytesCompare b a = -1 :=
  ⟨by decide, ReverseIterator_exact twoKeyStore [0x01] [] [0x03] (by decide)⟩

theorem head_false_of_pairwise {α : Type} {P : α → Bool} {a : α} {t : List α}
    (h : (a :: t).Pairwise fun x y => P x = true → P y = true) {q : α} (hq : q ∈ a :: t)
    (hPq : P q = false) : P a = false := by
  cases hPa : P a with
  | false => rfl
  | true =>
    rcases List.mem_cons.mp hq with rfl | hqt
    · rw [hPa] at hPq
      cases hPq
    · rw [(List.pairwise_cons.mp h).1 q hqt hPa] at hPq
      cases hPq

theorem ReverseIterator_invalid_of_gap (db : MemDB) (pre start : Bytes)
    {r : Option Bytes} (hr : cpIncr pre = .ok r) {q : Bytes} (hq : (db.Get q).isSome = true)
    (hqd : IsKeyInDomain q (pre ++ start) r = true) (hqp : HasPrefix q pre = false) :
    ∃ itr, (NewPrefixDB db pre).ReverseIterator start none = .ok itr ∧ itr.valid = false := by
  have hopen := (NewPrefixDB db pre).openIterator_none MemDB.ReverseIterator start hr
  dsimp only [NewPrefixDB] at hopen
  refine ⟨_, hopen, ?_⟩
  have hqK : q ∈ (db.getSortedKeys (pre ++ start) r false).reverse :=
    List.mem_reverse.mpr (MemDB.mem_getSortedKeys.mpr ⟨hq, hqd⟩)
  have hblock := List.pairwise_reverse.mpr (getSortedKeys_block db pre start r)
  simp only [prefixIterator.synced, MemDB.ReverseIterator, newMemDBIterator,
    MemDB.getSortedKeys_true, memDBIterator.Valid] at hqK hblock ⊢
  cases hrev : (db.getSortedKeys (pre ++ start) r false).reverse with
  | nil =>
    rw [hrev] at hqK
    cases hqK
  | cons a t =>
    rw [hrev] at hqK hblock
    simp [head_false_of_pairwise hblock hqK hqp]

/-- A store holding the keys `[0x01, 0xFF]` and `[0x02]`. -/
def gapStore : MemDB := ⟨((∅ : Map Bytes Bytes).insert [0x01, 0xFF] [0x07]).insert [0x02] [0x08]⟩

theorem ReverseIterator_misses_view (fuel : Nat) :
    ∃ itr, (NewPrefixDB gapStore [0x01, 0xFF]).ReverseIterator [] none = .ok itr ∧
      (prefixIterator.methods memDBIterator.methods).pairs fuel itr = .ok [] ∧
      InView gapStore [0x01, 0xFF] [] none [] = true := by
  obtain ⟨itr, hitr, hv⟩ := ReverseIterator_invalid_of_gap gapStore [0x01, 0xFF] []
    (r := some [0x02, 0x00]) (by decide) (q := [0x02]) (by decide) (by decide) (by decide)
  exact ⟨itr, hitr, prefixIterator.pairs_of_invalid _ hv fuel, by decide⟩

namespace prefixDB

theorem Get_eq (pdb : prefixDB) (k : Bytes) : pdb.Get k = pdb.db.Get (pdb.pre ++ k) := by
  simp [Get, prefixed]

theorem Has_eq (pdb : prefixDB) (k : Bytes) : pdb.Has k = (pdb.Get k).isSome := by
  simp [Has, Get, MemDB.Has, MemDB.Get]

theorem Get_Set (pdb : prefixDB) (key value k : Bytes) :
    (pdb.Set key value).Get k = if k = key then some value else pdb.Get k := by
  simp only [Get_eq, Set, prefixed, cp_eq, MemDB.Get_Set, List.append_cancel_left_eq]

theorem Get_Delete (pdb : prefixDB) (key k : Bytes) :
    (pdb.Delete key).Get k = if k = key then none else pdb.Get k := by
  simp only [Get_eq, Delete, prefixed, cp_eq, MemDB.Get_Delete, List.append_cancel_left_eq]

end prefixDB

/-! ### Batches -/

/-- `prefixBatch`: the prefix and the store's batch it records into. -/
structure prefixBatch where
  pre : Bytes
  source : memBatch

def newPrefixBatch (pre : Bytes) (source : memBatch) : prefixBatch := ⟨pre, source⟩

def prefixDB.NewBatch (pdb : prefixDB) : prefixBatch := newPrefixBatch pdb.pre pdb.db.NewBatch

namespace prefixBatch

def Set (pb : prefixBatch) (key value : Bytes) : prefixBatch :=
  { pb with source := pb.source.Set (cp pb.pre ++ key) value }

def Delete (pb : prefixBatch) (key : Bytes) : prefixBatch :=
  { pb with source := pb.source.Delete (cp pb.pre ++ key) }

/-- `pb.Write()`, on the store of the view. -/
def Write (pb : prefixBatch) (db : MemDB) : MemDB := pb.source.Write MemDB.setDeleter db

def WriteSync (pb : prefixBatch) (db : MemDB) : MemDB := pb.source.WriteSync MemDB.setDeleter db

def Close (pb : prefixBatch) : prefixBatch := { pb with source := pb.source.Close }

end prefixBatch

/-! ### `IteratePrefix` -/

/-- `IteratePrefix(db, prefix)` on a `MemDB`: nil bounds for an empty prefix, else
`[cp(prefix), cpIncr(prefix))`. -/
def IteratePrefix (db : MemDB) (pre : Bytes) : Result memDBIterator :=
  if pre.length = 0 then .ok (db.Iterator [] none)
  else do
    let e ← cpIncr pre
    pure (db.Iterator (cp pre) e)

/-- The prefixes whose `cpIncr` bound is tight: empty, all `0xFF`s, or ending below `0xFF`. -/
def TightPrefix (pre : Bytes) : Prop := pre.getLast?.all (· < 0xFF) = true ∨ ∀ y ∈ pre, y = 0xFF

theorem IteratePrefix_domain (db : MemDB) {pre : Bytes} (hpre : TightPrefix pre) :
    ∃ start e, IteratePrefix db pre = .ok (db.Iterator start e) ∧
      ∀ q, IsKeyInDomain q start e = true ↔ pre <+: q := by
  rcases List.eq_nil_or_concat' pre with rfl | ⟨a, x, rfl⟩
  · exact ⟨[], none, rfl, fun q => by simp [IsKeyInDomain_iff, bytesCompare_nil_ne]⟩
  obtain ⟨r, hr⟩ := cpIncr_ok (show a ++ [x] ≠ [] by simp)
  have hopen : IteratePrefix db (a ++ [x]) = .ok (db.Iterator (a ++ [x]) r) := by
    simp [IteratePrefix, hr]
  refine ⟨_, r, hopen, fun q => ?_⟩
  rcases hpre with hlast | hff
  · -- ending below `0xFF`: the bound is `a ++ [x + 1]`
    have hx : x < 0xFF := by simpa using hlast
    have hr' := cpIncr_carry a hx 0
    simp only [List.replicate_zero, hr] at hr'
    cases hr'
    rw [IsKeyInDomain_iff]
    constructor
    · rintro ⟨hs, he⟩
      exact prefix_of_between_succ hx hs (he _ rfl)
    · rintro ⟨t, rfl⟩
      refine ⟨bytesCompare_append_self _ _, ?_⟩
      rintro _ ⟨⟩
      rw [List.append_assoc, bytesCompare_append_left, List.singleton_append]
      exact bytesCompare_cons_lt (lt_add_one_of_lt_ff hx) _ _
  · -- all `0xFF`s: there is no bound
    obtain ⟨n, hn⟩ : ∃ n, a ++ [x] = List.replicate n 0xFF :=
      ⟨_, List.eq_replicate_iff.mpr ⟨rfl, hff⟩⟩
    rw [hn, cpIncr_replicate (by rintro rfl; simp at hn)] at hr
    cases hr
    rw [IsKeyInDomain_iff, hn]
    constructor
    · rintro ⟨hs, _⟩
      exact prefix_of_ge_replicate (s := []) (by simpa using hs)
    · rintro ⟨t, rfl⟩
      exact ⟨bytesCompare_append_self _ _, fun _ h => by cases h⟩

theorem IteratePrefix_exact (db : MemDB) {pre : Bytes} (hpre : TightPrefix pre) {fuel : Nat}
    (hfuel : len db.db < fuel) :
    ∃ itr, ∃ keys : List Bytes, IteratePrefix db pre = .ok itr ∧
      memDBIterator.methods.pairs fuel itr = .ok (keys.map fun k => (k, db.Get k)) ∧
      (∀ k, k ∈ keys ↔ (db.Get k).isSome = true ∧ pre <+: k) ∧
      keys.Pairwise fun a b => bytesCompare a b = -1 := by
  obtain ⟨start, e, hopen, hdom⟩ := IteratePrefix_domain db hpre
  refine ⟨_, db.getSortedKeys start e false, hopen, MemDB.pairs_Iterator db start e hfuel, ?_,
    MemDB.getSortedKeys_sorted db start e⟩
  intro k
  rw [MemDB.mem_getSortedKeys, hdom]

theorem IteratePrefix_lists_outside (db : MemDB) (a : Bytes) {x : UInt8} (hx : x < 0xFF) (m : Nat)
    (hq : (db.Get (a ++ [x + 1])).isSome = true) {fuel : Nat} (hfuel : len db.db < fuel) :
    ∃ itr, ∃ keys : List Bytes, IteratePrefix db (a ++ x :: List.replicate (m + 1) 0xFF) = .ok itr ∧
      memDBIterator.methods.pairs fuel itr = .ok (keys.map fun k => (k, db.Get k)) ∧
      a ++ [x + 1] ∈ keys ∧ ¬ (a ++ x :: List.replicate (m + 1) 0xFF <+: a ++ [x + 1]) := by
  set start := a ++ x :: List.replicate (m + 1) 0xFF
  set e := a ++ (x + 1) :: List.replicate (m + 1) 0x00
  have hopen : IteratePrefix db start = .ok (db.Iterator start (some e)) := by
    simp [IteratePrefix, start, e, cpIncr_carry a hx]
  have hdom : IsKeyInDomain (a ++ [x + 1]) start (some e) = true := by
    rw [IsKeyInDomain_iff]
    refine ⟨?_, ?_⟩
    · rw [bytesCompare_append_left, bytesCompare_cons_gt (lt_add_one_of_lt_ff hx)]
      decide
    · rintro _ ⟨⟩
      rw [bytesCompare_append_left, bytesCompare_cons_eq (UInt8.lt_irrefl _) (UInt8.lt_irrefl _)]
      rfl
  refine ⟨_, db.getSortedKeys start (some e) false, hopen, MemDB.pairs_Iterator db _ _ hfuel,
    MemDB.mem_getSortedKeys.mpr ⟨hq, hdom⟩, ?_⟩
  -- the byte after `a` is `x` in the prefix and `x + 1` in the key
  intro hpre
  have hxx := (List.cons_prefix_cons.mp ((List.prefix_append_right_inj a).mp hpre)).1
  have hlt := lt_add_one_of_lt_ff hx
  rw [← hxx] at hlt
  exact UInt8.lt_irrefl x hlt

/-- `IteratePrefix` yields exactly the stored keys with the prefix on every store if and only if
the prefix is empty, all `0xFF`s, or ends below `0xFF`. -/
theorem IteratePrefix_exact_iff (pre : Bytes) :
    (∀ db : MemDB, ∃ itr, ∃ keys : List Bytes, IteratePrefix db pre = .ok itr ∧
      memDBIterator.methods.pairs (len db.db + 1) itr = .ok (keys.map fun k => (k, db.Get k)) ∧
      ∀ k, k ∈ keys ↔ (db.Get k).isSome = true ∧ pre <+: k) ↔ TightPrefix pre := by
  constructor
  · intro hall
    by_contra hnt
    -- a prefix that is not tight is `a ++ x :: 0xFF…` with at least one `0xFF`
    obtain ⟨a, x, m, hx, rfl⟩ : ∃ a x m, x < 0xFF ∧ pre = a ++ x :: List.replicate (m + 1) 0xFF := by
      rcases eq_replicate_or_carry pre with ⟨n, rfl⟩ | ⟨a, x, m, hx, rfl⟩
      · exact absurd (.inr fun y hy => List.eq_of_mem_replicate hy) hnt
      · cases m with
        | zero => exact absurd (.inl (by simpa using hx)) hnt
        | succ m => exact ⟨a, x, m, hx, rfl⟩
    let db := MemDB.NewMemDB.Set (a ++ [x + 1]) []
    have hq : (db.Get (a ++ [x + 1])).isSome = true := by simp [db, MemDB.Get_Set]
    obtain ⟨itr, keys, hopen, hpairs, hkeys⟩ := hall db
    obtain ⟨itr', keys', hopen', hpairs', hmem, hnot⟩ :=
      IteratePrefix_lists_outside db a hx m hq (Nat.lt_succ_self _)
    rw [hopen] at hopen'
    cases hopen'
    rw [hpairs] at hpairs'
    have hk : keys = keys' := by
      have h := congrArg (List.map Prod.fst) (Result.ok.inj hpairs')
      simpa [List.map_map, Function.comp_def] using h
    exact hnot ((hkeys _).mp (hk ▸ hmem)).2
  · intro hpre db
    obtain ⟨itr, keys, hopen, hpairs, hkeys, _⟩ := IteratePrefix_exact db hpre (Nat.lt_succ_self _)
    exact ⟨itr, keys, hopen, hpairs, hkeys⟩

end Dgrid.Db
