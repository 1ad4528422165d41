import Dgrid.Pex.AddrBook

/-! What the helpers of the address book do when their sanity checks pass: each is equal to a
pure update of the book (`attach`, `dropRef`, `detach`), read through the buckets as maps from
the text of an address to its pointer (`bucket`). -/

namespace Dgrid.Pex
open Go GoMap P2p

/-- A bucket type the book has buckets of. -/
def ValidType (t : UInt8) : Prop := t = bucketTypeNew ∨ t = bucketTypeOld

instance (t : UInt8) : Decidable (ValidType t) := inferInstanceAs (Decidable (_ ∨ _))

/-- The number of buckets of type `t`. -/
def bucketCount (t : UInt8) : Nat := if t = bucketTypeNew then newBucketCount else oldBucketCount

theorem validType_new : ValidType bucketTypeNew := .inl rfl

theorem validType_old : ValidType bucketTypeOld := .inr rfl

theorem new_ne_old : bucketTypeNew ≠ bucketTypeOld := by decide

@[simp] theorem bucketCount_new : bucketCount bucketTypeNew = newBucketCount := rfl

@[simp] theorem bucketCount_old : bucketCount bucketTypeOld = oldBucketCount := rfl

namespace addrBook

variable (net : Net) (a : addrBook)

/-- Bucket `i` of type `t`; empty past the end or for another type. -/
def bucket (t : UInt8) (i : Nat) : Map Bytes Ptr :=
  if t = bucketTypeNew then a.bucketsNew.getD i ∅
  else if t = bucketTypeOld then a.bucketsOld.getD i ∅
  else ∅

/-- The address at `p` is known: the lookup points to it. -/
def Known (p : Ptr) : Prop := ∃ id, a.addrLookup.lookup id = some p

/-- The book with the lookup `l`. -/
def setLookup (l : Map Bytes Ptr) : addrBook := { a with addrLookup := l }

/-- One more address of type `t`. -/
def incr (t : UInt8) : addrBook :=
  if t = bucketTypeNew then { a with nNew := a.nNew + 1 } else { a with nOld := a.nOld + 1 }

/-- One address of type `t` fewer. -/
def decr (t : UInt8) : addrBook :=
  if t = bucketTypeNew then { a with nNew := a.nNew - 1 } else { a with nOld := a.nOld - 1 }

/-- The address at `p` put in bucket `i` of type `t`: what `addToNewBucket` and `addToOldBucket`
do once their checks pass. -/
def attach (t : UInt8) (p : Ptr) (i : Int) : addrBook :=
  let a := a.setBucket t i ((a.bucket t i.toNat).insert ((a.heap p).Addr.String net) p)
  let (n, ka) := (a.heap p).addBucketRef i
  let a := a.write p ka
  let a := if n = 1 then a.incr t else a
  a.setLookup (a.addrLookup.insert ka.ID p)

/-- The address at `p` taken out of bucket `i` of type `t`: `removeFromBucket` once its check
passes. -/
def dropRef (p : Ptr) (t : UInt8) (i : Int) : addrBook :=
  let ka := a.heap p
  let a := a.setBucket t i ((a.bucket t i.toNat).erase (ka.Addr.String net))
  let (n, ka) := ka.removeBucketRef i
  let a := a.write p ka
  if n = 0 then
    let a := a.decr t
    a.setLookup (a.addrLookup.erase ka.ID)
  else a

/-- The buckets `bs` of type `t`, each changed by `f`. -/
def mapBuckets (t : UInt8) (f : Map Bytes Ptr → Map Bytes Ptr) (bs : List Int) : addrBook :=
  bs.foldl (fun a i => a.setBucket t i (f (a.bucket t i.toNat))) a

/-- The key `k` deleted from the buckets `bs` of type `t`. -/
def eraseAll (t : UInt8) (k : Bytes) (bs : List Int) : addrBook :=
  bs.foldl (fun a i => a.setBucket t i ((a.bucket t i.toNat).erase k)) a

/-- The address at `p` taken out of all its buckets and of the lookup: `removeFromAllBuckets`. -/
def detach (p : Ptr) : addrBook :=
  let ka := a.heap p
  let a := (a.eraseAll ka.BucketType (ka.Addr.String net) ka.Buckets).write p { ka with Buckets := [] }
  let a := a.decr ka.BucketType
  a.setLookup (a.addrLookup.erase ka.ID)

/-- The bucket slices have the lengths `init` gives them. -/
structure Shaped : Prop where
  new : a.bucketsNew.length = newBucketCount
  old : a.bucketsOld.length = oldBucketCount

/-! ### Reading the book after an update -/

variable {net a} {t t' : UInt8} {i : Int} {j : Nat} {m : Map Bytes Ptr} {p q : Ptr}

theorem getD_set_of_lt {α : Type} {l : List α} {n : Nat} (x d : α) (hn : n < l.length) (j : Nat) :
    (l.set n x).getD j d = if j = n then x else l.getD j d := by
  simp only [List.getD_eq_getElem?_getD, List.getElem?_set, hn]
  grind

@[simp] theorem heap_setBucket : (a.setBucket t i m).heap = a.heap := by
  unfold setBucket; split <;> rfl

@[simp] theorem key_setBucket : (a.setBucket t i m).key = a.key := by
  unfold setBucket; split <;> rfl

@[simp] theorem addrLookup_setBucket : (a.setBucket t i m).addrLookup = a.addrLookup := by
  unfold setBucket; split <;> rfl

@[simp] theorem next_setBucket : (a.setBucket t i m).next = a.next := by
  unfold setBucket; split <;> rfl

@[simp] theorem nNew_setBucket : (a.setBucket t i m).nNew = a.nNew := by
  unfold setBucket; split <;> rfl

@[simp] theorem nOld_setBucket : (a.setBucket t i m).nOld = a.nOld := by
  unfold setBucket; split <;> rfl

theorem Shaped.setBucket (hs : a.Shaped) : (a.setBucket t i m).Shaped := by
  unfold addrBook.setBucket
  split
  · exact ⟨by simp [hs.new], hs.old⟩
  · exact ⟨hs.new, by simp [hs.old]⟩

theorem bucket_setBucket (hs : a.Shaped) (ht : ValidType t) (hi₀ : 0 ≤ i)
    (hi : i < bucketCount t) (t' : UInt8) (j : Nat) :
    (a.setBucket t i m).bucket t' j = if t' = t ∧ j = i.toNat then m else a.bucket t' j := by
  rcases ht with rfl | rfl
  · have hlt : i.toNat < a.bucketsNew.length := by rw [hs.new]; simp at hi; omega
    by_cases h : t' = bucketTypeNew
    · subst h
      simp only [setBucket, bucket, true_and]
      exact getD_set_of_lt _ _ hlt j
    · simp [setBucket, bucket, h]
  · have hlt : i.toNat < a.bucketsOld.length := by rw [hs.old]; simp at hi; omega
    by_cases h : t' = bucketTypeOld
    · subst h
      simp only [setBucket, bucket, if_neg new_ne_old.symm, true_and]
      exact getD_set_of_lt _ _ hlt j
    · simp [setBucket, bucket, h, new_ne_old.symm]

theorem getBucket_eq (hs : a.Shaped) (ht : ValidType t) (hi₀ : 0 ≤ i) (hi : i < bucketCount t) :
    a.getBucket t i = .ok (a.bucket t i.toNat) := by
  rcases ht with rfl | rfl
  · have hlt : i.toNat < a.bucketsNew.length := by rw [hs.new]; simp at hi; omega
    have hidx : index a.bucketsNew i = .ok a.bucketsNew[i.toNat] := by
      rw [← index_of_lt hlt, Int.toNat_of_nonneg hi₀]
    simp [getBucket, bucket, hidx, List.getElem?_eq_getElem hlt]
  · have hlt : i.toNat < a.bucketsOld.length := by rw [hs.old]; simp at hi; omega
    have hidx : index a.bucketsOld i = .ok a.bucketsOld[i.toNat] := by
      rw [← index_of_lt hlt, Int.toNat_of_nonneg hi₀]
    simp [getBucket, bucket, new_ne_old.symm, hidx, List.getElem?_eq_getElem hlt]

@[simp] theorem heap_write (ka : knownAddress) : (a.write p ka).heap = Function.update a.heap p ka :=
  rfl

@[simp] theorem bucket_write (ka : knownAddress) : (a.write p ka).bucket = a.bucket := rfl

@[simp] theorem addrLookup_write (ka : knownAddress) : (a.write p ka).addrLookup = a.addrLookup :=
  rfl

theorem Shaped.write (hs : a.Shaped) (ka : knownAddress) : (a.write p ka).Shaped :=
  ⟨hs.new, hs.old⟩

@[simp] theorem bucket_setLookup (l : Map Bytes Ptr) : (a.setLookup l).bucket = a.bucket := rfl

@[simp] theorem heap_setLookup (l : Map Bytes Ptr) : (a.setLookup l).heap = a.heap := rfl

@[simp] theorem addrLookup_setLookup (l : Map Bytes Ptr) : (a.setLookup l).addrLookup = l := rfl

@[simp] theorem next_setLookup (l : Map Bytes Ptr) : (a.setLookup l).next = a.next := rfl

@[simp] theorem nNew_setLookup (l : Map Bytes Ptr) : (a.setLookup l).nNew = a.nNew := rfl

@[simp] theorem nOld_setLookup (l : Map Bytes Ptr) : (a.setLookup l).nOld = a.nOld := rfl

theorem Shaped.setLookup (hs : a.Shaped) (l : Map Bytes Ptr) : (a.setLookup l).Shaped :=
  ⟨hs.new, hs.old⟩

@[simp] theorem key_setLookup (l : Map Bytes Ptr) : (a.setLookup l).key = a.key := rfl

@[simp] theorem key_incr : (a.incr t).key = a.key := by unfold incr; split <;> rfl

@[simp] theorem heap_incr : (a.incr t).heap = a.heap := by unfold incr; split <;> rfl

@[simp] theorem bucket_incr : (a.incr t).bucket = a.bucket := by unfold incr; split <;> rfl

@[simp] theorem addrLookup_incr : (a.incr t).addrLookup = a.addrLookup := by
  unfold incr; split <;> rfl

@[simp] theorem next_incr : (a.incr t).next = a.next := by unfold incr; split <;> rfl

@[simp] theorem heap_decr : (a.decr t).heap = a.heap := by unfold decr; split <;> rfl

@[simp] theorem bucket_decr : (a.decr t).bucket = a.bucket := by unfold decr; split <;> rfl

@[simp] theorem addrLookup_decr : (a.decr t).addrLookup = a.addrLookup := by
  unfold decr; split <;> rfl

@[simp] theorem next_decr : (a.decr t).next = a.next := by unfold decr; split <;> rfl

theorem Shaped.incr (hs : a.Shaped) : (a.incr t).Shaped := by
  unfold addrBook.incr; split <;> exact ⟨hs.new, hs.old⟩

theorem Shaped.decr (hs : a.Shaped) : (a.decr t).Shaped := by
  unfold addrBook.decr; split <;> exact ⟨hs.new, hs.old⟩

theorem nNew_incr : (a.incr t).nNew = a.nNew + if t = bucketTypeNew then 1 else 0 := by
  unfold incr; split <;> simp [*]

theorem nOld_incr (ht : ValidType t) :
    (a.incr t).nOld = a.nOld + if t = bucketTypeOld then 1 else 0 := by
  rcases ht with rfl | rfl <;> simp [incr, new_ne_old, new_ne_old.symm]

theorem nNew_decr : (a.decr t).nNew = a.nNew - if t = bucketTypeNew then 1 else 0 := by
  unfold decr; split <;> simp [*]

theorem nOld_decr (ht : ValidType t) :
    (a.decr t).nOld = a.nOld - if t = bucketTypeOld then 1 else 0 := by
  rcases ht with rfl | rfl <;> simp [decr, new_ne_old, new_ne_old.symm]

end addrBook

namespace knownAddress

variable {ka : knownAddress} {i : Int}

theorem addBucketRef_of_notMem (h : i ∉ ka.Buckets) :
    ka.addBucketRef i =
      (((ka.Buckets.length + 1 : Nat) : Int), { ka with Buckets := ka.Buckets ++ [i] }) :=
  if_neg h

theorem removeBucketRef_of_mem (h : i ∈ ka.Buckets) (hnd : ka.Buckets.Nodup) :
    ka.removeBucketRef i =
      (((ka.Buckets.erase i).length : Int), { ka with Buckets := ka.Buckets.erase i }) := by
  have hlen : ((ka.Buckets.erase i).length : Int) = ka.Buckets.length - 1 := by
    rw [List.length_erase_of_mem h]
    have := List.length_pos_of_mem h
    omega
  have hf : ka.Buckets.filter (fun b => decide (b ≠ i)) = ka.Buckets.erase i := by
    rw [hnd.erase_eq_filter]
    exact List.filter_congr fun b _ => by by_cases hb : b = i <;> simp [hb]
  unfold removeBucketRef
  simp only [hf, hlen, ne_eq, not_true_eq_false, if_false]

end knownAddress

namespace addrBook

variable {net : Net} {a : addrBook} {t t' : UInt8} {i : Int} {j : Nat} {p : Ptr}

/-! ### `attach`, `dropRef` and `detach` read back -/

section attach

variable (hs : a.Shaped) (ht : ValidType t) (hi₀ : 0 ≤ i) (hi : i < bucketCount t)
  (hnot : i ∉ (a.heap p).Buckets)
include hs ht hi₀ hi hnot

theorem attach_bucket (t' : UInt8) (j : Nat) :
    (a.attach net t p i).bucket t' j = if t' = t ∧ j = i.toNat then
      (a.bucket t i.toNat).insert ((a.heap p).Addr.String net) p else a.bucket t' j := by
  simp only [attach, heap_setBucket, knownAddress.addBucketRef_of_notMem hnot]
  split_ifs <;> simp_all [bucket_setBucket hs ht hi₀ hi]

omit hs ht hi₀ hi in
theorem attach_heap :
    (a.attach net t p i).heap =
      Function.update a.heap p { a.heap p with Buckets := (a.heap p).Buckets ++ [i] } := by
  simp only [attach, heap_setBucket, knownAddress.addBucketRef_of_notMem hnot]
  split_ifs <;> simp

omit hs ht hi₀ hi in
theorem addr_attach (q : Ptr) : ((a.attach net t p i).heap q).Addr = (a.heap q).Addr := by
  rw [attach_heap hnot, Function.update_apply]
  split_ifs with hq <;> simp [hq]

omit hs ht hi₀ hi in
theorem type_attach (q : Ptr) :
    ((a.attach net t p i).heap q).BucketType = (a.heap q).BucketType := by
  rw [attach_heap hnot, Function.update_apply]
  split_ifs with hq <;> simp [hq]

omit hs ht hi₀ hi in
theorem buckets_attach (q : Ptr) : ((a.attach net t p i).heap q).Buckets =
    if q = p then (a.heap p).Buckets ++ [i] else (a.heap q).Buckets := by
  rw [attach_heap hnot, Function.update_apply]
  split_ifs <;> rfl

omit hs ht hi₀ hi in
theorem attach_addrLookup : (a.attach net t p i).addrLookup = a.addrLookup.insert (a.heap p).ID p := by
  simp only [attach, heap_setBucket, knownAddress.addBucketRef_of_notMem hnot]
  split_ifs <;> simp [knownAddress.ID]

omit hs ht hi₀ hi in
theorem attach_next : (a.attach net t p i).next = a.next := by
  simp only [attach, heap_setBucket, knownAddress.addBucketRef_of_notMem hnot]
  split_ifs <;> simp [write]

omit hs ht hi₀ hi in
theorem attach_nNew : (a.attach net t p i).nNew =
    a.nNew + if t = bucketTypeNew ∧ (a.heap p).Buckets = [] then 1 else 0 := by
  simp only [attach, heap_setBucket, knownAddress.addBucketRef_of_notMem hnot]
  by_cases hb : (a.heap p).Buckets = []
  · simp [hb, nNew_incr, write]
  · simp [hb, write]

omit hs hi₀ hi in
theorem attach_nOld : (a.attach net t p i).nOld =
    a.nOld + if t = bucketTypeOld ∧ (a.heap p).Buckets = [] then 1 else 0 := by
  simp only [attach, heap_setBucket, knownAddress.addBucketRef_of_notMem hnot]
  by_cases hb : (a.heap p).Buckets = []
  · simp [hb, nOld_incr ht, write]
  · simp [hb, write]

omit ht hi₀ hi in
theorem Shaped.attach : (a.attach net t p i).Shaped := by
  simp only [addrBook.attach, heap_setBucket, knownAddress.addBucketRef_of_notMem hnot]
  split_ifs
  · exact ((hs.setBucket.write _).incr).setLookup _
  · exact (hs.setBucket.write _).setLookup _

end attach

section dropRef

variable (hs : a.Shaped) (ht : ValidType t) (hi₀ : 0 ≤ i) (hi : i < bucketCount t)
  (hmem : i ∈ (a.heap p).Buckets) (hnd : (a.heap p).Buckets.Nodup)
include hs ht hi₀ hi hmem hnd

theorem dropRef_bucket (t' : UInt8) (j : Nat) :
    (a.dropRef net p t i).bucket t' j = if t' = t ∧ j = i.toNat then
      (a.bucket t i.toNat).erase ((a.heap p).Addr.String net) else a.bucket t' j := by
  simp only [dropRef, knownAddress.removeBucketRef_of_mem hmem hnd]
  split_ifs <;> simp_all [bucket_setBucket hs ht hi₀ hi]

omit hs ht hi₀ hi in
theorem dropRef_heap :
    (a.dropRef net p t i).heap =
      Function.update a.heap p { a.heap p with Buckets := (a.heap p).Buckets.erase i } := by
  simp only [dropRef, knownAddress.removeBucketRef_of_mem hmem hnd]
  split_ifs <;> simp

omit hs ht hi₀ hi in
theorem addr_dropRef (q : Ptr) : ((a.dropRef net p t i).heap q).Addr = (a.heap q).Addr := by
  rw [dropRef_heap hmem hnd, Function.update_apply]
  split_ifs with hq <;> simp [hq]

omit hs ht hi₀ hi in
theorem type_dropRef (q : Ptr) :
    ((a.dropRef net p t i).heap q).BucketType = (a.heap q).BucketType := by
  rw [dropRef_heap hmem hnd, Function.update_apply]
  split_ifs with hq <;> simp [hq]

omit hs ht hi₀ hi in
theorem buckets_dropRef (q : Ptr) : ((a.dropRef net p t i).heap q).Buckets =
    if q = p then (a.heap p).Buckets.erase i else (a.heap q).Buckets := by
  rw [dropRef_heap hmem hnd, Function.update_apply]
  split_ifs <;> rfl

omit hs ht hi₀ hi in
theorem dropRef_addrLookup : (a.dropRef net p t i).addrLookup =
    if (a.heap p).Buckets.erase i = [] then a.addrLookup.erase (a.heap p).ID else a.addrLookup := by
  simp only [dropRef, knownAddress.removeBucketRef_of_mem hmem hnd]
  by_cases he : (a.heap p).Buckets.erase i = [] <;> simp [he, knownAddress.ID]

omit hs ht hi₀ hi in
theorem dropRef_next : (a.dropRef net p t i).next = a.next := by
  simp only [dropRef, knownAddress.removeBucketRef_of_mem hmem hnd]
  split_ifs <;> simp [write]

omit hs ht hi₀ hi in
theorem dropRef_nNew : (a.dropRef net p t i).nNew =
    a.nNew - if t = bucketTypeNew ∧ (a.heap p).Buckets.erase i = [] then 1 else 0 := by
  simp only [dropRef, knownAddress.removeBucketRef_of_mem hmem hnd]
  by_cases he : (a.heap p).Buckets.erase i = [] <;> simp [he, nNew_decr, write]

omit hs hi₀ hi in
theorem dropRef_nOld : (a.dropRef net p t i).nOld =
    a.nOld - if t = bucketTypeOld ∧ (a.heap p).Buckets.erase i = [] then 1 else 0 := by
  simp only [dropRef, knownAddress.removeBucketRef_of_mem hmem hnd]
  by_cases he : (a.heap p).Buckets.erase i = [] <;> simp [he, nOld_decr ht, write]

omit ht hi₀ hi in
theorem Shaped.dropRef : (a.dropRef net p t i).Shaped := by
  simp only [addrBook.dropRef, knownAddress.removeBucketRef_of_mem hmem hnd]
  split_ifs
  · exact ((hs.setBucket.write _).decr).setLookup _
  · exact hs.setBucket.write _

end dropRef

section mapBuckets

variable {f : Map Bytes Ptr → Map Bytes Ptr} {bs : List Int}

theorem mapBuckets_cons (b : Int) :
    a.mapBuckets t f (b :: bs) = (a.setBucket t b (f (a.bucket t b.toNat))).mapBuckets t f bs := rfl

@[simp] theorem key_mapBuckets : (a.mapBuckets t f bs).key = a.key := by
  induction bs generalizing a with
  | nil => rfl
  | cons b bs ih => rw [mapBuckets_cons, ih, key_setBucket]

@[simp] theorem heap_mapBuckets : (a.mapBuckets t f bs).heap = a.heap := by
  induction bs generalizing a with
  | nil => rfl
  | cons b bs ih => rw [mapBuckets_cons, ih, heap_setBucket]

@[simp] theorem addrLookup_mapBuckets : (a.mapBuckets t f bs).addrLookup = a.addrLookup := by
  induction bs generalizing a with
  | nil => rfl
  | cons b bs ih => rw [mapBuckets_cons, ih, addrLookup_setBucket]

@[simp] theorem next_mapBuckets : (a.mapBuckets t f bs).next = a.next := by
  induction bs generalizing a with
  | nil => rfl
  | cons b bs ih => rw [mapBuckets_cons, ih, next_setBucket]

@[simp] theorem nNew_mapBuckets : (a.mapBuckets t f bs).nNew = a.nNew := by
  induction bs generalizing a with
  | nil => rfl
  | cons b bs ih => rw [mapBuckets_cons, ih, nNew_setBucket]

@[simp] theorem nOld_mapBuckets : (a.mapBuckets t f bs).nOld = a.nOld := by
  induction bs generalizing a with
  | nil => rfl
  | cons b bs ih => rw [mapBuckets_cons, ih, nOld_setBucket]

variable (hs : a.Shaped) (ht : ValidType t) (hr : ∀ b ∈ bs, 0 ≤ b ∧ b < bucketCount t)
include hs ht hr

omit ht in
theorem Shaped.mapBuckets : (a.mapBuckets t f bs).Shaped := by
  induction bs generalizing a with
  | nil => exact hs
  | cons b bs ih =>
      exact ih hs.setBucket fun b' hb' => hr b' (List.mem_cons_of_mem _ hb')

theorem mapBuckets_bucket (hf : ∀ m, f (f m) = f m) (t' : UInt8) (j : Nat) :
    (a.mapBuckets t f bs).bucket t' j =
      if t' = t ∧ (j : Int) ∈ bs then f (a.bucket t' j) else a.bucket t' j := by
  induction bs generalizing a with
  | nil => simp [mapBuckets]
  | cons b bs ih =>
      obtain ⟨hb₀, hb⟩ := hr b List.mem_cons_self
      have hrest : ∀ b' ∈ bs, 0 ≤ b' ∧ b' < bucketCount t :=
        fun b' hb' => hr b' (List.mem_cons_of_mem _ hb')
      rw [mapBuckets_cons, ih hs.setBucket hrest, bucket_setBucket hs ht hb₀ hb]
      by_cases hj : t' = t ∧ j = b.toNat
      · obtain ⟨rfl, rfl⟩ := hj
        simp [Int.toNat_of_nonneg hb₀, hf]
      · have hmem : (t' = t ∧ (j : Int) ∈ b :: bs) ↔ (t' = t ∧ (j : Int) ∈ bs) := by
          constructor
          · rintro ⟨rfl, hm⟩
            rcases List.mem_cons.mp hm with h | h
            · exact absurd ⟨rfl, by omega⟩ hj
            · exact ⟨rfl, h⟩
          · rintro ⟨rfl, hm⟩
            exact ⟨rfl, List.mem_cons_of_mem _ hm⟩
        simp only [hj, if_false, hmem]

end mapBuckets

section eraseAll

variable {k : Bytes} {bs : List Int}

theorem eraseAll_eq : a.eraseAll t k bs = a.mapBuckets t (fun m => m.erase k) bs := rfl

theorem eraseAll_cons (b : Int) :
    a.eraseAll t k (b :: bs) = (a.setBucket t b ((a.bucket t b.toNat).erase k)).eraseAll t k bs := rfl

@[simp] theorem heap_eraseAll : (a.eraseAll t k bs).heap = a.heap := heap_mapBuckets

@[simp] theorem addrLookup_eraseAll : (a.eraseAll t k bs).addrLookup = a.addrLookup :=
  addrLookup_mapBuckets

@[simp] theorem next_eraseAll : (a.eraseAll t k bs).next = a.next := next_mapBuckets

@[simp] theorem nNew_eraseAll : (a.eraseAll t k bs).nNew = a.nNew := nNew_mapBuckets

@[simp] theorem nOld_eraseAll : (a.eraseAll t k bs).nOld = a.nOld := nOld_mapBuckets

variable (hs : a.Shaped) (ht : ValidType t) (hr : ∀ b ∈ bs, 0 ≤ b ∧ b < bucketCount t)
include hs ht hr

omit ht in
theorem Shaped.eraseAll : (a.eraseAll t k bs).Shaped := hs.mapBuckets hr

theorem eraseAll_bucket (t' : UInt8) (j : Nat) :
    (a.eraseAll t k bs).bucket t' j =
      if t' = t ∧ (j : Int) ∈ bs then (a.bucket t' j).erase k else a.bucket t' j :=
  mapBuckets_bucket hs ht hr (fun m => erase_erase_self m k) t' j

end eraseAll

section detach

variable (hs : a.Shaped) (ht : ValidType (a.heap p).BucketType)
  (hr : ∀ b ∈ (a.heap p).Buckets, 0 ≤ b ∧ b < bucketCount (a.heap p).BucketType)
include hs ht hr

theorem detach_bucket (t' : UInt8) (j : Nat) :
    (a.detach net p).bucket t' j =
      if t' = (a.heap p).BucketType ∧ (j : Int) ∈ (a.heap p).Buckets then
        (a.bucket t' j).erase ((a.heap p).Addr.String net) else a.bucket t' j := by
  simp only [detach, bucket_setLookup, bucket_decr, bucket_write]
  exact eraseAll_bucket hs ht hr t' j

omit hs ht hr in
theorem detach_heap :
    (a.detach net p).heap = Function.update a.heap p { a.heap p with Buckets := [] } := by
  simp [detach]

omit hs ht hr in
theorem addr_detach (q : Ptr) : ((a.detach net p).heap q).Addr = (a.heap q).Addr := by
  rw [detach_heap, Function.update_apply]
  split_ifs with hq <;> simp [hq]

omit hs ht hr in
theorem type_detach (q : Ptr) :
    ((a.detach net p).heap q).BucketType = (a.heap q).BucketType := by
  rw [detach_heap, Function.update_apply]
  split_ifs with hq <;> simp [hq]

omit hs ht hr in
theorem buckets_detach (q : Ptr) :
    ((a.detach net p).heap q).Buckets = if q = p then [] else (a.heap q).Buckets := by
  rw [detach_heap, Function.update_apply]
  split_ifs <;> rfl

omit hs ht hr in
theorem detach_addrLookup : (a.detach net p).addrLookup = a.addrLookup.erase (a.heap p).ID := by
  simp [detach, knownAddress.ID]

omit hs ht hr in
theorem detach_next : (a.detach net p).next = a.next := by
  simp [detach, write]

omit hs ht hr in
theorem detach_nNew :
    (a.detach net p).nNew = a.nNew - if (a.heap p).BucketType = bucketTypeNew then 1 else 0 := by
  simp [detach, nNew_decr, write]

omit hs hr in
theorem detach_nOld :
    (a.detach net p).nOld = a.nOld - if (a.heap p).BucketType = bucketTypeOld then 1 else 0 := by
  simp [detach, nOld_decr ht, write]

omit ht in
theorem Shaped.detach : (a.detach net p).Shaped :=
  (((hs.eraseAll hr).write _).decr).setLookup _

end detach

/-! ### The helpers are these updates -/

section helpers

variable (hs : a.Shaped)
include hs

theorem removeFromBucket_eq (ht : ValidType t) (hi₀ : 0 ≤ i) (hi : i < bucketCount t)
    (htype : (a.heap p).BucketType = t) :
    a.removeFromBucket net p t i = .ok (a.dropRef net p t i) := by
  simp only [removeFromBucket, dropRef, decr, setLookup, htype, ne_eq, not_true_eq_false,
    if_false, getBucket_eq hs ht hi₀ hi, Result.ok_bind]
  split_ifs <;> rfl

theorem foldlM_erase_eq {k : Bytes} {bs : List Int} (ht : ValidType t)
    (hr : ∀ b ∈ bs, 0 ≤ b ∧ b < bucketCount t) :
    bs.foldlM (fun (a : addrBook) bucketIdx => do
      let bucket ← a.getBucket t bucketIdx
      pure (a.setBucket t bucketIdx (bucket.erase k))) a = .ok (a.eraseAll t k bs) := by
  induction bs generalizing a with
  | nil => rfl
  | cons b bs ih =>
      obtain ⟨hb₀, hb⟩ := hr b List.mem_cons_self
      rw [List.foldlM_cons, getBucket_eq hs ht hb₀ hb, Result.ok_bind, Result.pure_eq, Result.ok_bind, eraseAll_cons]
      exact ih hs.setBucket fun b' hb' => hr b' (List.mem_cons_of_mem _ hb')

theorem removeFromAllBuckets_eq (ht : ValidType (a.heap p).BucketType)
    (hr : ∀ b ∈ (a.heap p).Buckets, 0 ≤ b ∧ b < bucketCount (a.heap p).BucketType) :
    a.removeFromAllBuckets net p = .ok (a.detach net p) := by
  simp only [removeFromAllBuckets, detach, decr, setLookup, foldlM_erase_eq hs ht hr,
    Result.ok_bind]
  split_ifs <;> rfl

theorem addToOldBucket_eq (hi₀ : 0 ≤ i) (hi : i < oldBucketCount)
    (hold : (a.heap p).BucketType = bucketTypeOld) (hb : (a.heap p).Buckets = []) :
    a.addToOldBucket net p i =
      if (a.heap p).Addr.String net ∈ a.bucket bucketTypeOld i.toNat then .ok (true, a)
      else if len (a.bucket bucketTypeOld i.toNat) > oldBucketSize then .ok (false, a)
      else .ok (true, a.attach net bucketTypeOld p i) := by
  have hnew : (a.heap p).isNew = false := by simp [knownAddress.isNew, hold, new_ne_old.symm]
  have hnot : i ∉ (a.heap p).Buckets := by simp [hb]
  simp only [addToOldBucket, hnew, hb, ne_eq, not_true_eq_false,
    if_false, Bool.false_eq_true, getBucket_eq hs validType_old hi₀ hi, Result.ok_bind,
    knownAddress.addBucketRef_of_notMem hnot, List.length_nil, zero_add, Nat.cast_one, if_true]
  split_ifs <;> simp [attach, incr, setLookup, new_ne_old.symm,
    knownAddress.addBucketRef_of_notMem hnot, hb]

theorem addToNewBucket_of_not_full {env : Env} (hi₀ : 0 ≤ i) (hi : i < newBucketCount)
    (hnew : (a.heap p).BucketType = bucketTypeNew)
    (hnot : (a.heap p).Addr.String net ∉ a.bucket bucketTypeNew i.toNat)
    (hlen : len (a.bucket bucketTypeNew i.toNat) ≤ newBucketSize) :
    a.addToNewBucket net env p i = .ok (a.attach net bucketTypeNew p i) := by
  have hold : (a.heap p).isOld = false := by simp [knownAddress.isOld, hnew, new_ne_old]
  simp only [addToNewBucket, hold, Bool.false_eq_true, if_false,
    getBucket_eq hs validType_new hi₀ hi, Result.ok_bind, hnot, not_lt.mpr hlen, Result.pure_eq]
  simp [attach, incr, setLookup]

theorem addToNewBucket_of_full {env : Env} {a' : addrBook} (hi₀ : 0 ≤ i) (hi : i < newBucketCount)
    (hnew : (a.heap p).BucketType = bucketTypeNew)
    (hnot : (a.heap p).Addr.String net ∉ a.bucket bucketTypeNew i.toNat)
    (hlen : newBucketSize < len (a.bucket bucketTypeNew i.toNat))
    (hexp : a.expireNew net env i = .ok a') (hs' : a'.Shaped) (hheap : a'.heap p = a.heap p) :
    a.addToNewBucket net env p i = .ok (a'.attach net bucketTypeNew p i) := by
  have hold : (a.heap p).isOld = false := by simp [knownAddress.isOld, hnew, new_ne_old]
  simp only [addToNewBucket, hold, Bool.false_eq_true, if_false,
    getBucket_eq hs validType_new hi₀ hi, Result.ok_bind, hnot, hlen, if_true, hexp,
    getBucket_eq hs' validType_new hi₀ hi]
  simp [attach, incr, setLookup, hheap]

theorem index_bucketsNew (hi₀ : 0 ≤ i) (hi : i < newBucketCount) :
    index a.bucketsNew i = .ok (a.bucket bucketTypeNew i.toNat) := by
  have := getBucket_eq hs validType_new hi₀ hi
  simpa [getBucket] using this

omit hs in
theorem foldl_olderOf_mem : ∀ (l : List Ptr) (o : Option Ptr) (q : Ptr),
    l.foldl a.olderOf o = some q → q ∈ l ∨ o = some q
  | [], _, _, h => .inr h
  | p :: l, o, q, h => by
      rcases foldl_olderOf_mem l _ q h with hq | hq
      · exact .inl (List.mem_cons_of_mem _ hq)
      · unfold olderOf at hq
        split at hq
        · exact .inl (Option.some.inj hq ▸ List.mem_cons_self)
        · split_ifs at hq with hlt
          · exact .inl (Option.some.inj hq ▸ List.mem_cons_self)
          · exact .inr hq

omit hs in
theorem foldl_olderOf_isSome : ∀ (l : List Ptr) (o : Option Ptr), l ≠ [] →
    (l.foldl a.olderOf o).isSome
  | [], _, h => absurd rfl h
  | [p], o, _ => by
      simp only [List.foldl_cons, List.foldl_nil, olderOf]
      split
      · rfl
      · split_ifs <;> rfl
  | p :: p' :: l, o, _ => foldl_olderOf_isSome (p' :: l) _ (List.cons_ne_nil _ _)

theorem pickOldest_eq (env : Env) (ht : ValidType t) (hi₀ : 0 ≤ i) (hi : i < bucketCount t)
    (hne : values (a.bucket t i.toNat) ≠ []) :
    ∃ q ∈ values (a.bucket t i.toNat), a.pickOldest env t i = .ok (some q) := by
  have hperm := env.order_perm (values (a.bucket t i.toNat))
  have hne' : env.order (values (a.bucket t i.toNat)) ≠ [] := fun h => by
    rw [h] at hperm
    exact hne hperm.symm.eq_nil
  obtain ⟨q, hq⟩ := Option.isSome_iff_exists.mp (foldl_olderOf_isSome (a := a) _ none hne')
  refine ⟨q, ?_, by simp [pickOldest, getBucket_eq hs ht hi₀ hi, hq]⟩
  rcases foldl_olderOf_mem _ _ q hq with h | h
  · exact hperm.subset h
  · cases h

variable (net) in
theorem expireNew_eq (env : Env) (hi₀ : 0 ≤ i) (hi : i < newBucketCount)
    (hne : values (a.bucket bucketTypeNew i.toNat) ≠ [])
    (htype : ∀ q ∈ values (a.bucket bucketTypeNew i.toNat), (a.heap q).BucketType = bucketTypeNew) :
    ∃ q ∈ values (a.bucket bucketTypeNew i.toNat),
      a.expireNew net env i = .ok (a.dropRef net q bucketTypeNew i) := by
  have hperm := env.order_perm (values (a.bucket bucketTypeNew i.toNat))
  have hdrop : ∀ q ∈ values (a.bucket bucketTypeNew i.toNat),
      a.removeFromBucket net q bucketTypeNew i = .ok (a.dropRef net q bucketTypeNew i) :=
    fun q hq => removeFromBucket_eq hs validType_new hi₀ hi (htype q hq)
  cases hf : (env.order (values (a.bucket bucketTypeNew i.toNat))).find?
      fun q => (a.heap q).isBad env.now with
  | some q =>
      have hq : q ∈ values (a.bucket bucketTypeNew i.toNat) := hperm.subset (List.mem_of_find?_eq_some hf)
      exact ⟨q, hq, by simp [expireNew, index_bucketsNew hs hi₀ hi, hf, hdrop q hq]⟩
  | none =>
      obtain ⟨q, hq, hpick⟩ := pickOldest_eq hs env validType_new hi₀ hi hne
      exact ⟨q, hq, by simp [expireNew, index_bucketsNew hs hi₀ hi, hf, hpick, hdrop q hq]⟩

end helpers

end addrBook

end Dgrid.Pex
