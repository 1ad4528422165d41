import Dgrid.Pex.AddrBookInvariant

/-! Saving the book and loading the file into a new book. The loaded book has the key, the
lookup, the buckets and the counters of the saved one, up to where its objects live: loading
rebuilds the buckets from each address's own list, so the round trip rests on the invariant
that those lists are exactly the buckets holding the address. -/

namespace Dgrid.Pex
open Go GoMap P2p

namespace addrBook

variable {net : Net} {a b : addrBook} {ka : knownAddress} {t : UInt8} {k : Bytes} {p : Ptr}
  {bs : List Int}

/-- The key `k` written to the buckets `bs` of type `t`, pointing at `p`. -/
def insertAll (a : addrBook) (t : UInt8) (k : Bytes) (p : Ptr) (bs : List Int) : addrBook :=
  a.mapBuckets t (fun m => m.insert k p) bs

theorem foldlM_insert_eq (hs : a.Shaped) (ht : ValidType t)
    (hr : ∀ b ∈ bs, 0 ≤ b ∧ b < bucketCount t) :
    bs.foldlM (fun (a : addrBook) bucketIndex => do
      let bucket ← a.getBucket t bucketIndex
      pure (a.setBucket t bucketIndex (bucket.insert k p))) a = .ok (a.insertAll t k p bs) := by
  induction bs generalizing a with
  | nil => rfl
  | cons b bs ih =>
      obtain ⟨hb₀, hb⟩ := hr b List.mem_cons_self
      rw [List.foldlM_cons, getBucket_eq hs ht hb₀ hb, Result.ok_bind, Result.pure_eq,
        Result.ok_bind]
      exact ih hs.setBucket fun b' hb' => hr b' (List.mem_cons_of_mem _ hb')

variable (net) in
/-- The book after `loadAddr` of `ka`: a new object, written to the buckets of its list and to
the lookup, and counted. -/
def withLoaded (a : addrBook) (ka : knownAddress) : addrBook :=
  (((a.alloc ka).insertAll ka.BucketType (ka.Addr.String net) a.next ka.Buckets).setLookup
    (a.addrLookup.insert ka.ID a.next)).incr ka.BucketType

theorem loadAddr_eq (hs : b.Shaped) (ht : ValidType ka.BucketType)
    (hr : ∀ i ∈ ka.Buckets, 0 ≤ i ∧ i < bucketCount ka.BucketType) :
    loadAddr net b ka = .ok (b.withLoaded net ka) := by
  have hs' : (b.alloc ka).Shaped := ⟨hs.1, hs.2⟩
  simp only [loadAddr]
  erw [foldlM_insert_eq hs' ht hr, Result.ok_bind]
  simp [withLoaded, incr, setLookup, insertAll]

@[simp] theorem heap_withLoaded : (b.withLoaded net ka).heap = Function.update b.heap b.next ka := by
  simp [withLoaded, insertAll]

@[simp] theorem next_withLoaded : (b.withLoaded net ka).next = b.next + 1 := by
  simp [withLoaded, insertAll]

@[simp] theorem addrLookup_withLoaded :
    (b.withLoaded net ka).addrLookup = b.addrLookup.insert ka.ID b.next := by
  simp [withLoaded]

theorem nNew_withLoaded :
    (b.withLoaded net ka).nNew = b.nNew + if ka.BucketType = bucketTypeNew then 1 else 0 := by
  simp [withLoaded, nNew_incr, insertAll, alloc, write]

theorem nOld_withLoaded (ht : ValidType ka.BucketType) :
    (b.withLoaded net ka).nOld = b.nOld + if ka.BucketType = bucketTypeOld then 1 else 0 := by
  simp [withLoaded, nOld_incr ht, insertAll, alloc, write]

section withLoaded

variable (hs : b.Shaped) (ht : ValidType ka.BucketType)
  (hr : ∀ i ∈ ka.Buckets, 0 ≤ i ∧ i < bucketCount ka.BucketType)
include hs ht hr

omit ht in
theorem Shaped.withLoaded : (b.withLoaded net ka).Shaped :=
  ((Shaped.mapBuckets (⟨hs.1, hs.2⟩ : (b.alloc ka).Shaped) hr).setLookup _).incr

theorem bucket_withLoaded (t' : UInt8) (j : Nat) :
    (b.withLoaded net ka).bucket t' j =
      if t' = ka.BucketType ∧ (j : Int) ∈ ka.Buckets then
        (b.bucket t' j).insert (ka.Addr.String net) b.next else b.bucket t' j := by
  simp only [withLoaded, bucket_incr, bucket_setLookup, insertAll]
  exact mapBuckets_bucket (f := fun m => m.insert (ka.Addr.String net) b.next)
    (⟨hs.1, hs.2⟩ : (b.alloc ka).Shaped) ht hr (fun m => AList.insert_insert m) t' j

end withLoaded

theorem map_update_of_lt {h : Ptr → knownAddress} {o : Option Ptr} (ho : ∀ q, o = some q → q < p) :
    o.map (Function.update h p ka) = o.map h := by
  cases o with
  | none => rfl
  | some q => simp [Function.update_of_ne (ho q rfl).ne]

/-! ### The load loop -/

/-- What the load loop keeps after the addresses `D`: the book keeps its shape, its maps point
below the next free object, and its lookup, its buckets and its counters describe `D`. -/
structure Loaded (net : Net) (D : List knownAddress) (b : addrBook) : Prop where
  shaped : b.Shaped
  lookup_lt : ∀ id q, b.addrLookup.lookup id = some q → q < b.next
  bucket_lt : ∀ t (j : Nat) k q, (b.bucket t j).lookup k = some q → q < b.next
  lookup : ∀ id ka, (b.addrLookup.lookup id).map b.heap = some ka ↔ ka ∈ D ∧ ka.ID = id
  bucket : ∀ t (j : Nat) k ka, ((b.bucket t j).lookup k).map b.heap = some ka ↔
    ka ∈ D ∧ ka.BucketType = t ∧ (j : Int) ∈ ka.Buckets ∧ ka.Addr.String net = k
  nNew : b.nNew = D.countP fun ka => ka.BucketType = bucketTypeNew
  nOld : b.nOld = D.countP fun ka => ka.BucketType = bucketTypeOld

variable {D : List knownAddress}

theorem Loaded.withLoaded (hl : Loaded net D b) (ht : ValidType ka.BucketType)
    (hr : ∀ i ∈ ka.Buckets, 0 ≤ i ∧ i < bucketCount ka.BucketType)
    (hID : ∀ ka' ∈ D, ka'.ID ≠ ka.ID)
    (hS : ∀ ka' ∈ D, ka'.Addr.String net ≠ ka.Addr.String net) :
    Loaded net (D ++ [ka]) (b.withLoaded net ka) := by
  have hs := hl.shaped
  refine ⟨hs.withLoaded hr, fun id q h => ?_, fun t j k q h => ?_, fun id ka' => ?_,
    fun t j k ka' => ?_, ?_, ?_⟩
  · rw [addrLookup_withLoaded, lookup_insert_eq_some] at h
    rw [next_withLoaded]
    rcases h with ⟨-, rfl⟩ | ⟨-, h⟩
    · exact Nat.lt_succ_self _
    · exact Nat.lt_succ_of_lt (hl.lookup_lt id q h)
  · rw [bucket_withLoaded hs ht hr] at h
    rw [next_withLoaded]
    split_ifs at h
    · rcases lookup_insert_eq_some.mp h with ⟨-, rfl⟩ | ⟨-, h⟩
      · exact Nat.lt_succ_self _
      · exact Nat.lt_succ_of_lt (hl.bucket_lt _ _ _ q h)
    · exact Nat.lt_succ_of_lt (hl.bucket_lt _ _ _ q h)
  · rw [addrLookup_withLoaded, heap_withLoaded]
    by_cases hid : id = ka.ID
    · subst hid
      rw [AList.lookup_insert, Option.map_some, Function.update_self, Option.some.injEq]
      constructor
      · rintro rfl
        exact ⟨List.mem_append_right _ (List.mem_singleton_self _), rfl⟩
      · rintro ⟨hmem, hid⟩
        rcases List.mem_append.mp hmem with h | h
        · exact absurd hid (hID ka' h)
        · exact (List.mem_singleton.mp h).symm
    · rw [AList.lookup_insert_ne hid, map_update_of_lt (hl.lookup_lt id), hl.lookup,
        List.mem_append, List.mem_singleton]
      constructor
      · rintro ⟨h, rfl⟩
        exact ⟨.inl h, rfl⟩
      · rintro ⟨h | rfl, rfl⟩
        · exact ⟨h, rfl⟩
        · exact absurd rfl hid
  · rw [bucket_withLoaded hs ht hr, heap_withLoaded]
    split_ifs with hj
    · by_cases hk : k = ka.Addr.String net
      · subst hk
        rw [AList.lookup_insert, Option.map_some, Function.update_self, Option.some.injEq]
        constructor
        · rintro rfl
          exact ⟨List.mem_append_right _ (List.mem_singleton_self _), hj.1.symm, hj.2, rfl⟩
        · rintro ⟨hmem, -, -, hk⟩
          rcases List.mem_append.mp hmem with h | h
          · exact absurd hk (hS ka' h)
          · exact (List.mem_singleton.mp h).symm
      · rw [AList.lookup_insert_ne hk, map_update_of_lt (hl.bucket_lt t j k), hl.bucket,
          List.mem_append, List.mem_singleton]
        constructor
        · rintro ⟨h, h₁, h₂, h₃⟩
          exact ⟨.inl h, h₁, h₂, h₃⟩
        · rintro ⟨h | rfl, h₁, h₂, h₃⟩
          · exact ⟨h, h₁, h₂, h₃⟩
          · exact absurd h₃.symm hk
    · rw [map_update_of_lt (hl.bucket_lt t j k), hl.bucket, List.mem_append, List.mem_singleton]
      constructor
      · rintro ⟨h, h₁, h₂, h₃⟩
        exact ⟨.inl h, h₁, h₂, h₃⟩
      · rintro ⟨h | rfl, h₁, h₂, h₃⟩
        · exact ⟨h, h₁, h₂, h₃⟩
        · exact absurd ⟨h₁.symm, h₂⟩ hj
  · rw [nNew_withLoaded, hl.nNew, List.countP_append]
    split_ifs <;> simp [*]
  · rw [nOld_withLoaded ht, hl.nOld, List.countP_append]
    split_ifs <;> simp [*]

@[simp] theorem key_withLoaded : (b.withLoaded net ka).key = b.key := by
  simp only [withLoaded, insertAll, key_incr, key_setLookup, key_mapBuckets]
  rfl

theorem Loaded.nil (hs : b.Shaped) (hl : b.addrLookup = ∅) (hb : ∀ t j, b.bucket t j = ∅)
    (hn : b.nNew = 0) (ho : b.nOld = 0) : Loaded net [] b := by
  refine ⟨hs, fun id q h => by simp [hl] at h, fun t j k q h => by simp [hb] at h,
    fun id ka => by simp [hl], fun t j k ka => by simp [hb], by simp [hn], by simp [ho]⟩

theorem load_foldlM : ∀ (L D : List knownAddress) (b : addrBook), Loaded net D b →
    (D ++ L).Pairwise (fun x y => x.ID ≠ y.ID ∧ x.Addr.String net ≠ y.Addr.String net) →
    (∀ ka ∈ L, ValidType ka.BucketType ∧ ∀ i ∈ ka.Buckets, 0 ≤ i ∧ i < bucketCount ka.BucketType) →
    ∃ b', L.foldlM (loadAddr net) b = .ok b' ∧ Loaded net (D ++ L) b' ∧ b'.key = b.key
  | [], D, b, hl, _, _ => ⟨b, rfl, by simpa using hl, rfl⟩
  | ka :: L, D, b, hl, hp, hv => by
      obtain ⟨ht, hr⟩ := hv ka List.mem_cons_self
      have hsep := (List.pairwise_append.mp hp).2.2
      have hl' := hl.withLoaded ht hr (fun x hx => (hsep x hx ka List.mem_cons_self).1)
        (fun x hx => (hsep x hx ka List.mem_cons_self).2)
      obtain ⟨b', hrun, hl'', hkey⟩ := load_foldlM L (D ++ [ka]) _ hl' (by simpa using hp)
        (fun x hx => hv x (List.mem_cons_of_mem _ hx))
      rw [List.foldlM_cons, loadAddr_eq hl.shaped ht hr, Result.ok_bind]
      exact ⟨b', hrun, by simpa using hl'', by rw [hkey, key_withLoaded]⟩

/-! ### The round trip -/

theorem Wf.saved_pairwise (hw : a.Wf net) (env : Env) :
    ((env.order (values a.addrLookup)).map a.heap).Pairwise
      (fun x y => x.ID ≠ y.ID ∧ x.Addr.String net ≠ y.Addr.String net) := by
  have hnd : (env.order (values a.addrLookup)).Nodup :=
    (env.order_perm _).nodup_iff.mpr hw.values_nodup
  refine List.pairwise_map.mpr (hnd.imp_of_mem fun {q q'} hq hq' hne => ⟨fun hid => ?_, fun hS => ?_⟩)
  · have hk := mem_values_known ((env.order_perm _).subset hq)
    have hk' := mem_values_known ((env.order_perm _).subset hq')
    have h₁ := hw.known_iff.mp hk
    rw [hid, hw.known_iff.mp hk'] at h₁
    exact hne (Option.some.inj h₁).symm
  · exact hne (hw.eq_of_String_eq (mem_values_known ((env.order_perm _).subset hq))
      (mem_values_known ((env.order_perm _).subset hq')) hS)

theorem Wf.saved_valid (hw : a.Wf net) (env : Env) :
    ∀ ka ∈ (env.order (values a.addrLookup)).map a.heap,
      ValidType ka.BucketType ∧ ∀ i ∈ ka.Buckets, 0 ≤ i ∧ i < bucketCount ka.BucketType := by
  intro ka hka
  obtain ⟨q, hq, rfl⟩ := List.mem_map.mp hka
  have hk := hw.known_wf (mem_values_known ((env.order_perm _).subset hq))
  exact ⟨hk.type, hk.range⟩

theorem mem_saved {env : Env} :
    ka ∈ (env.order (values a.addrLookup)).map a.heap ↔ ∃ q, a.Known q ∧ a.heap q = ka := by
  simp only [List.mem_map, (env.order_perm _).mem_iff, mem_values]
  rfl

/-- Loading the file of a reachable book into a new book gives back the key, the lookup and the
buckets, each entry pointing to an equal address, and the counters. -/
theorem loadFromFile_saveToFile (h : a.Reachable net) (env : Env) (key : Bytes)
    (routabilityStrict : Bool) :
    ∃ b, (NewAddrBook key routabilityStrict).loadFromFile net (some (a.saveToFile env)) =
        .ok (true, b) ∧ b.key = a.key ∧
      (∀ id, (b.addrLookup.lookup id).map b.heap = (a.addrLookup.lookup id).map a.heap) ∧
      b.bucketsNew.length = a.bucketsNew.length ∧ b.bucketsOld.length = a.bucketsOld.length ∧
      (∀ t j k, ((b.bucket t j).lookup k).map b.heap = ((a.bucket t j).lookup k).map a.heap) ∧
      b.nNew = a.nNew ∧ b.nOld = a.nOld := by
  have hw := h.wf
  have hl₀ : Loaded net [] { NewAddrBook key routabilityStrict with key := a.key } :=
    Loaded.nil ⟨by simp [NewAddrBook], by simp [NewAddrBook]⟩ rfl
      (bucket_NewAddrBook key routabilityStrict) rfl rfl
  obtain ⟨b, hrun, hl, hkey⟩ := load_foldlM _ [] _ hl₀ (by simpa using hw.saved_pairwise env)
    (hw.saved_valid env)
  simp only [List.nil_append] at hl
  refine ⟨b, by simp [loadFromFile, saveToFile, hrun], hkey, fun id => ?_,
    hl.shaped.new.trans hw.shaped.new.symm, hl.shaped.old.trans hw.shaped.old.symm,
    fun t j k => ?_, ?_, ?_⟩
  · refine Option.ext fun ka => ?_
    rw [hl.lookup, mem_saved, Option.map_eq_some_iff]
    constructor
    · rintro ⟨⟨q, ⟨id', hq⟩, rfl⟩, rfl⟩
      exact ⟨q, by rw [← hw.lookup_ID id' q hq] at hq; exact hq, rfl⟩
    · rintro ⟨q, hq, rfl⟩
      exact ⟨⟨q, ⟨id, hq⟩, rfl⟩, hw.lookup_ID id q hq⟩
  · refine Option.ext fun ka => ?_
    rw [hl.bucket, mem_saved, Option.map_eq_some_iff]
    constructor
    · rintro ⟨⟨q, hq, rfl⟩, h₁, h₂, h₃⟩
      exact ⟨q, (hw.bucket t j k q).mpr ⟨hq, h₁, h₂, h₃⟩, rfl⟩
    · rintro ⟨q, hq, rfl⟩
      obtain ⟨hk, h₁, h₂, h₃⟩ := (hw.bucket t j k q).mp hq
      exact ⟨⟨q, hk, rfl⟩, h₁, h₂, h₃⟩
  · rw [hl.nNew, hw.nNew, countType, List.countP_map, (env.order_perm _).countP_eq]
    rfl
  · rw [hl.nOld, hw.nOld, countType, List.countP_map, (env.order_perm _).countP_eq]
    rfl

theorem loadFromFile_saveToFile_marked :
    ∃ a : addrBook, a.Reachable flatNet ∧ a.nNew = 1 ∧ a.nOld = 1 ∧
      ∃ b, (NewAddrBook [1] true).loadFromFile flatNet (some (a.saveToFile (firstEnv 0))) =
          .ok (true, b) ∧ b.key = a.key ∧
        (∀ id, (b.addrLookup.lookup id).map b.heap = (a.addrLookup.lookup id).map a.heap) ∧
        b.bucketsNew.length = a.bucketsNew.length ∧ b.bucketsOld.length = a.bucketsOld.length ∧
        (∀ t j k, ((b.bucket t j).lookup k).map b.heap = ((a.bucket t j).lookup k).map a.heap) ∧
        b.nNew = a.nNew ∧ b.nOld = a.nOld := by
  obtain ⟨a, hr, hnew, hold⟩ := reachable_marked
  exact ⟨a, hr, hnew, hold, loadFromFile_saveToFile hr (firstEnv 0) [1] true⟩

end addrBook

end Dgrid.Pex
