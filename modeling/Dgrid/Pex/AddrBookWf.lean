import Dgrid.Pex.AddrBookSpec

/-! The bookkeeping invariant of the address book: the lookup, the buckets and the bucket lists of
the known addresses describe the same thing, and the counters count it. Each of the pure updates
the helpers amount to keeps it, given what the callers check first. -/

namespace Dgrid.Pex
open Go GoMap P2p

/-- What a known address satisfies on its own: a valid ID, a type the book has buckets of, no
bucket twice and each in range, one to `maxNewBucketsPerAddress` buckets when new, one when old. -/
structure knownAddress.Wf (ka : knownAddress) : Prop where
  validID : validID ka.Addr.ID
  type : ValidType ka.BucketType
  nodup : ka.Buckets.Nodup
  range : ∀ b ∈ ka.Buckets, 0 ≤ b ∧ b < bucketCount ka.BucketType
  new : ka.isNew → 1 ≤ ka.Buckets.length ∧ ka.Buckets.length ≤ maxNewBucketsPerAddress
  old : ka.isOld → ka.Buckets.length = 1

theorem knownAddress.Wf.congr {ka ka' : knownAddress} (h : ka.Wf) (hA : ka'.Addr = ka.Addr)
    (hT : ka'.BucketType = ka.BucketType) (hB : ka'.Buckets = ka.Buckets) : ka'.Wf where
  validID := hA ▸ h.validID
  type := hT ▸ h.type
  nodup := hB ▸ h.nodup
  range := hB ▸ hT ▸ h.range
  new := by simpa [knownAddress.isNew, hT, hB] using h.new
  old := by simpa [knownAddress.isOld, hT, hB] using h.old

theorem knownAddress.wf_addBucket {ka : knownAddress} {i : Int} (hid : validID ka.Addr.ID)
    (ht : ValidType ka.BucketType) (hnd : ka.Buckets.Nodup)
    (hr : ∀ b ∈ ka.Buckets, 0 ≤ b ∧ b < bucketCount ka.BucketType)
    (hi₀ : 0 ≤ i) (hi : i < bucketCount ka.BucketType) (hnot : i ∉ ka.Buckets)
    (hcap : ka.isNew → ka.Buckets.length < maxNewBucketsPerAddress)
    (hold : ka.isOld → ka.Buckets = []) :
    { ka with Buckets := ka.Buckets ++ [i] }.Wf where
  validID := hid
  type := ht
  nodup := List.nodup_append.mpr ⟨hnd, List.nodup_singleton i, fun b hb c hc => by
    rw [List.mem_singleton.mp hc]
    rintro rfl
    exact hnot hb⟩
  range := fun b hb => by
    rcases List.mem_append.mp hb with hb | hb
    · exact hr b hb
    · rw [List.mem_singleton.mp hb]
      exact ⟨hi₀, hi⟩
  new := fun h => by
    have := hcap h
    simp only [List.length_append, List.length_singleton]
    omega
  old := fun h => by simp [hold h]

namespace addrBook

/-- The number of known addresses of type `t`. -/
def countType (a : addrBook) (t : UInt8) : Nat :=
  (values a.addrLookup).countP fun p => (a.heap p).BucketType = t

/-- The address at `p` is in bucket `i` of type `t` under the text `k`, as the address itself
says: it is known, it has that type, its list names the bucket and its text is `k`. -/
def InBucket (net : Net) (a : addrBook) (t : UInt8) (i : Int) (k : Bytes) (p : Ptr) : Prop :=
  a.Known p ∧ (a.heap p).BucketType = t ∧ i ∈ (a.heap p).Buckets ∧ (a.heap p).Addr.String net = k

/-- The bookkeeping invariant: the lookup keys each known address by its ID; a bucket holds, under
its text, exactly the known addresses of its type whose list names it; the counters count the
known addresses of each type. -/
structure Wf (net : Net) (a : addrBook) : Prop where
  shaped : a.Shaped
  lookup_ID : ∀ id p, a.addrLookup.lookup id = some p → (a.heap p).ID = id
  lt_next : ∀ id p, a.addrLookup.lookup id = some p → p < a.next
  known : ∀ id p, a.addrLookup.lookup id = some p → (a.heap p).Wf
  bucket : ∀ t (i : Nat) k p, (a.bucket t i).lookup k = some p ↔ a.InBucket net t i k p
  nNew : a.nNew = a.countType bucketTypeNew
  nOld : a.nOld = a.countType bucketTypeOld

/-- The object at `p` is an address about to enter the book: its ID is valid and not in the
lookup, its list is empty, and it is allocated. -/
structure Fresh (a : addrBook) (p : Ptr) : Prop where
  validID : validID (a.heap p).Addr.ID
  lookup : a.addrLookup.lookup (a.heap p).ID = none
  buckets : (a.heap p).Buckets = []
  lt_next : p < a.next

variable {net : Net} {a : addrBook} {p q : Ptr} {t : UInt8} {i : Int} {id : Bytes}

theorem Wf.known_iff (hw : a.Wf net) : a.Known p ↔ a.addrLookup.lookup (a.heap p).ID = some p := by
  constructor
  · rintro ⟨id, h⟩
    rw [hw.lookup_ID id p h]
    exact h
  · exact fun h => ⟨_, h⟩

theorem Wf.known_wf (hw : a.Wf net) (hp : a.Known p) : (a.heap p).Wf :=
  let ⟨id, h⟩ := hp
  hw.known id p h

theorem Wf.known_lt (hw : a.Wf net) (hp : a.Known p) : p < a.next :=
  let ⟨id, h⟩ := hp
  hw.lt_next id p h

theorem Wf.lookup_bucket (hw : a.Wf net) (hp : a.Known p) (hi : i ∈ (a.heap p).Buckets) :
    (a.bucket (a.heap p).BucketType i.toNat).lookup ((a.heap p).Addr.String net) = some p := by
  have hi₀ := ((hw.known_wf hp).range i hi).1
  exact (hw.bucket _ _ _ _).mpr ⟨hp, rfl, by rw [Int.toNat_of_nonneg hi₀]; exact hi, rfl⟩

theorem Wf.of_mem_values (hw : a.Wf net) {j : Nat} (hq : q ∈ values (a.bucket t j)) :
    a.Known q ∧ (a.heap q).BucketType = t ∧ (j : Int) ∈ (a.heap q).Buckets := by
  obtain ⟨k, hk⟩ := mem_values.mp hq
  obtain ⟨h₁, h₂, h₃, -⟩ := (hw.bucket _ _ _ _).mp hk
  exact ⟨h₁, h₂, h₃⟩

theorem mem_values_known {l : Map Bytes Ptr} (h : q ∈ values l) : ∃ id, l.lookup id = some q :=
  mem_values.mp h

theorem Wf.write (hw : a.Wf net) (ka : knownAddress)
    (hka : a.Known p → ka.Addr = (a.heap p).Addr ∧ ka.BucketType = (a.heap p).BucketType ∧
      ka.Buckets = (a.heap p).Buckets) :
    (a.write p ka).Wf net := by
  have hsame : ∀ q, a.Known q → ((a.write p ka).heap q).Addr = (a.heap q).Addr ∧
      ((a.write p ka).heap q).BucketType = (a.heap q).BucketType ∧
      ((a.write p ka).heap q).Buckets = (a.heap q).Buckets := by
    intro q hq
    by_cases hqp : q = p
    · subst hqp
      simpa using hka hq
    · simp [hqp]
  have hcount : ∀ t, (a.write p ka).countType t = a.countType t := fun t =>
    List.countP_congr fun q hq => by
      simp only [decide_eq_true_eq]
      rw [(hsame q (mem_values_known hq)).2.1]
  refine ⟨hw.shaped.write ka, fun id q h => ?_, hw.lt_next, fun id q h => ?_, fun t i k q => ?_,
    by rw [hcount]; exact hw.nNew, by rw [hcount]; exact hw.nOld⟩
  · rw [knownAddress.ID, (hsame q ⟨id, h⟩).1]
    exact hw.lookup_ID id q h
  · obtain ⟨h₁, h₂, h₃⟩ := hsame q ⟨id, h⟩
    exact (hw.known id q h).congr h₁ h₂ h₃
  · rw [bucket_write, hw.bucket]
    constructor
    · rintro ⟨hq, h₂, h₃, h₄⟩
      obtain ⟨e₁, e₂, e₃⟩ := hsame q hq
      exact ⟨hq, e₂ ▸ h₂, e₃ ▸ h₃, e₁ ▸ h₄⟩
    · rintro ⟨hq, h₂, h₃, h₄⟩
      obtain ⟨e₁, e₂, e₃⟩ := hsame q hq
      exact ⟨hq, e₂ ▸ h₂, e₃ ▸ h₃, e₁ ▸ h₄⟩

theorem Wf.write_unknown (hw : a.Wf net) (hp : ¬ a.Known p) (ka : knownAddress) :
    (a.write p ka).Wf net :=
  hw.write ka fun h => absurd h hp

theorem Wf.write_times (hw : a.Wf net) {ka : knownAddress} (hA : ka.Addr = (a.heap p).Addr)
    (hT : ka.BucketType = (a.heap p).BucketType) (hB : ka.Buckets = (a.heap p).Buckets) :
    (a.write p ka).Wf net :=
  hw.write ka fun _ => ⟨hA, hT, hB⟩

theorem Wf.buckets_ne_nil (hw : a.Wf net) (hp : a.Known p) : (a.heap p).Buckets ≠ [] := by
  have hk := hw.known_wf hp
  rcases hk.type with h | h
  · exact List.ne_nil_of_length_pos (hk.new (by simp [knownAddress.isNew, h])).1
  · exact List.ne_nil_of_length_pos (by rw [hk.old (by simp [knownAddress.isOld, h])]; omega)

theorem Fresh.not_known (hf : a.Fresh p) (hw : a.Wf net) : ¬ a.Known p := fun hp => by
  have h := hw.known_iff.mp hp
  rw [hf.lookup] at h
  cases h

theorem Wf.eq_of_lookup_ID (hw : a.Wf net) (hp : a.Known p ∨ a.Fresh p)
    (h : a.addrLookup.lookup (a.heap p).ID = some q) : q = p := by
  rcases hp with hp | hf
  · exact Option.some.inj (h.symm.trans (hw.known_iff.mp hp))
  · rw [hf.lookup] at h
    cases h

theorem Wf.not_mem_of_key (hw : a.Wf net) (hp : a.Known p ∨ a.Fresh p)
    (htype : (a.heap p).BucketType = t) (hkey : (a.heap p).Addr.String net ∉ a.bucket t i.toNat) :
    i ∉ (a.heap p).Buckets := by
  rcases hp with hp | hf
  · intro hi
    have h := hw.lookup_bucket hp hi
    rw [htype] at h
    exact hkey (AList.lookup_isSome.mp (by rw [h]; rfl))
  · simp [hf.buckets]

theorem Wf.eq_of_String_eq (hw : a.Wf net) (hp : a.Known p) (hq : a.Known q)
    (h : (a.heap p).Addr.String net = (a.heap q).Addr.String net) : p = q := by
  have hid := ID_eq_of_String_eq net (hw.known_wf hp).validID (hw.known_wf hq).validID h
  have hp' := hw.known_iff.mp hp
  rw [show (a.heap p).ID = (a.heap q).ID from hid, hw.known_iff.mp hq] at hp'
  exact (Option.some.inj hp').symm

theorem Wf.values_nodup (hw : a.Wf net) : (values a.addrLookup).Nodup := by
  unfold values
  refine List.Nodup.map_on (fun x hx y hy hxy => ?_) a.addrLookup.nodupKeys.nodup
  have hx' := hw.lookup_ID _ _ (AList.mem_lookup_iff.mpr hx)
  have hy' := hw.lookup_ID _ _ (AList.mem_lookup_iff.mpr hy)
  rw [hxy] at hx'
  exact Sigma.ext (hx'.symm.trans hy') (heq_of_eq hxy)

/-! ### Putting an address in a bucket -/

section attach

variable (hw : a.Wf net) (htype : (a.heap p).BucketType = t)
  (hkey : (a.heap p).Addr.String net ∉ a.bucket t i.toNat) (hp : a.Known p ∨ a.Fresh p)
include hw htype hkey hp

theorem lookup_attach (h : (a.attach net t p i).addrLookup.lookup id = some q) :
    (id = (a.heap p).ID ∧ q = p) ∨ a.addrLookup.lookup id = some q := by
  rw [attach_addrLookup (hw.not_mem_of_key hp htype hkey), lookup_insert_eq_some] at h
  rcases h with ⟨h₁, h₂⟩ | ⟨-, h⟩
  · exact .inl ⟨h₁, h₂.symm⟩
  · exact .inr h

theorem known_attach : (a.attach net t p i).Known q ↔ a.Known q ∨ q = p := by
  have hnot := hw.not_mem_of_key hp htype hkey
  constructor
  · rintro ⟨id, h⟩
    rcases lookup_attach hw htype hkey hp h with ⟨-, rfl⟩ | h
    · exact .inr rfl
    · exact .inl ⟨id, h⟩
  · rintro (⟨id, h⟩ | rfl)
    · refine ⟨id, ?_⟩
      rw [attach_addrLookup hnot, lookup_insert_eq_some]
      by_cases hid : id = (a.heap p).ID
      · subst hid
        exact .inl ⟨rfl, (hw.eq_of_lookup_ID hp h).symm⟩
      · exact .inr ⟨hid, h⟩
    · exact ⟨(a.heap q).ID, by rw [attach_addrLookup hnot]; exact AList.lookup_insert _⟩

theorem inBucket_attach {t' : UInt8} {j : Int} {k : Bytes} :
    (a.attach net t p i).InBucket net t' j k q ↔
      a.InBucket net t' j k q ∨ (q = p ∧ t' = t ∧ j = i ∧ k = (a.heap p).Addr.String net) := by
  have hnot := hw.not_mem_of_key hp htype hkey
  unfold InBucket
  rw [known_attach hw htype hkey hp, addr_attach hnot, type_attach hnot, buckets_attach hnot]
  by_cases hqp : q = p
  · subst hqp
    -- an address in no bucket yet is the fresh one, so only the new bucket needs care
    have hknown : j ∈ (a.heap q).Buckets → a.Known q := by
      rcases hp with hp | hf
      · exact fun _ => hp
      · simp [hf.buckets]
    simp only [↓reduceIte, List.mem_append, List.mem_singleton, or_true, true_and]
    constructor
    · rintro ⟨rfl, hj | rfl, rfl⟩
      · exact .inl ⟨hknown hj, rfl, hj, rfl⟩
      · exact .inr ⟨htype, rfl, rfl⟩
    · rintro (⟨-, rfl, hj, rfl⟩ | ⟨rfl, rfl, rfl⟩)
      · exact ⟨rfl, .inl hj, rfl⟩
      · exact ⟨htype, .inr rfl, rfl⟩
  · simp [hqp]

theorem countType_attach (s : UInt8) : (a.attach net t p i).countType s =
    a.countType s + if (a.heap p).Buckets = [] ∧ t = s then 1 else 0 := by
  have hnot := hw.not_mem_of_key hp htype hkey
  unfold countType
  simp only [type_attach hnot, attach_addrLookup hnot]
  rcases hp with hp | hf
  · rw [if_neg fun h => hw.buckets_ne_nil hp h.1, add_zero, values_insert]
    exact ((values_perm_erase (hw.known_iff.mp hp)).countP_eq _).symm
  · rw [values_insert_of_notMem (AList.lookup_eq_none.mp hf.lookup), List.countP_cons, htype]
    simp [hf.buckets]

theorem Wf.attach (ht : ValidType t) (hi₀ : 0 ≤ i) (hi : i < bucketCount t)
    (hcap : t = bucketTypeNew → (a.heap p).Buckets.length < maxNewBucketsPerAddress)
    (hold : t = bucketTypeOld → (a.heap p).Buckets = []) : (a.attach net t p i).Wf net := by
  have hnot := hw.not_mem_of_key hp htype hkey
  have hpre : validID (a.heap p).Addr.ID ∧ (a.heap p).Buckets.Nodup ∧
      ∀ b ∈ (a.heap p).Buckets, 0 ≤ b ∧ b < bucketCount t := by
    rcases hp with hp | hf
    · have hk := hw.known_wf hp
      exact ⟨hk.validID, hk.nodup, htype ▸ hk.range⟩
    · simp [hf.validID, hf.buckets]
  have hwfp : ((a.attach net t p i).heap p).Wf := by
    rw [attach_heap hnot, Function.update_self]
    exact knownAddress.wf_addBucket hpre.1 (htype ▸ ht) hpre.2.1 (htype ▸ hpre.2.2) hi₀
      (htype ▸ hi) hnot (fun h => hcap (by simpa [knownAddress.isNew, htype] using h))
      (fun h => hold (by simpa [knownAddress.isOld, htype] using h))
  refine ⟨hw.shaped.attach hnot, fun id q h => ?_, fun id q h => ?_, fun id q h => ?_,
    fun t' j k q => ?_, ?_, ?_⟩
  · rw [knownAddress.ID, addr_attach hnot]
    rcases lookup_attach hw htype hkey hp h with ⟨rfl, rfl⟩ | h
    · rfl
    · exact hw.lookup_ID id q h
  · rw [attach_next hnot]
    rcases lookup_attach hw htype hkey hp h with ⟨-, rfl⟩ | h
    · rcases hp with hp | hf
      · exact hw.known_lt hp
      · exact hf.lt_next
    · exact hw.lt_next id q h
  · by_cases hqp : q = p
    · subst hqp
      exact hwfp
    · rcases lookup_attach hw htype hkey hp h with ⟨-, rfl⟩ | h
      · exact absurd rfl hqp
      · rw [attach_heap hnot, Function.update_of_ne hqp]
        exact hw.known id q h
  · have hii : (i.toNat : Int) = i := Int.toNat_of_nonneg hi₀
    rw [attach_bucket hw.shaped ht hi₀ hi hnot, inBucket_attach hw htype hkey hp]
    split_ifs with hj
    · obtain ⟨rfl, rfl⟩ := hj
      rw [lookup_insert_eq_some, hw.bucket]
      by_cases hk : k = (a.heap p).Addr.String net
      · subst hk
        -- the text was in no entry of the bucket, so the only entry under it is the new one
        have hfree : ¬ a.InBucket net t' i ((a.heap p).Addr.String net) q := fun h =>
          hkey (AList.lookup_isSome.mp (by rw [(hw.bucket _ _ _ _).mpr (by rw [hii]; exact h)]; rfl))
        simp [hfree, hii, eq_comm]
      · simp [hk]
    · rw [hw.bucket]
      have hne : ¬ (t' = t ∧ (j : Int) = i) := fun h => hj ⟨h.1, by have := h.2; omega⟩
      constructor
      · exact .inl
      · rintro (h | ⟨-, h₁, h₂, -⟩)
        · exact h
        · exact absurd ⟨h₁, h₂⟩ hne
  · rw [attach_nNew hnot, countType_attach hw htype hkey hp, hw.nNew]
    split_ifs <;> simp_all
  · rw [attach_nOld ht hnot, countType_attach hw htype hkey hp, hw.nOld]
    split_ifs <;> simp_all

end attach

theorem Wf.lookup_erase_iff (hw : a.Wf net) {j : Nat} {k : Bytes}
    (hp : a.InBucket net t j ((a.heap p).Addr.String net) p) :
    ((a.bucket t j).erase ((a.heap p).Addr.String net)).lookup k = some q ↔
      a.InBucket net t j k q ∧ q ≠ p := by
  rw [lookup_erase_eq_some, hw.bucket]
  constructor
  · rintro ⟨hk, hq⟩
    refine ⟨hq, ?_⟩
    rintro rfl
    exact hk hq.2.2.2.symm
  · rintro ⟨hq, hqp⟩
    refine ⟨?_, hq⟩
    rintro rfl
    exact hqp (Option.some.inj (((hw.bucket _ _ _ _).mpr hq).symm.trans ((hw.bucket _ _ _ _).mpr hp)))

/-! ### Taking an address out of all its buckets -/

section detach

variable (hw : a.Wf net) (hp : a.Known p)
include hw hp

theorem lookup_detach : (a.detach net p).addrLookup.lookup id = some q ↔
    a.addrLookup.lookup id = some q ∧ q ≠ p := by
  rw [detach_addrLookup, lookup_erase_eq_some]
  constructor
  · rintro ⟨hid, h⟩
    refine ⟨h, ?_⟩
    rintro rfl
    exact hid (hw.lookup_ID id _ h).symm
  · rintro ⟨h, hqp⟩
    refine ⟨?_, h⟩
    rintro rfl
    exact hqp (hw.eq_of_lookup_ID (.inl hp) h)

theorem known_detach : (a.detach net p).Known q ↔ a.Known q ∧ q ≠ p := by
  constructor
  · rintro ⟨id, h⟩
    obtain ⟨h, hqp⟩ := (lookup_detach hw hp).mp h
    exact ⟨⟨id, h⟩, hqp⟩
  · rintro ⟨⟨id, h⟩, hqp⟩
    exact ⟨id, (lookup_detach hw hp).mpr ⟨h, hqp⟩⟩

theorem inBucket_detach {t' : UInt8} {j : Int} {k : Bytes} :
    (a.detach net p).InBucket net t' j k q ↔ a.InBucket net t' j k q ∧ q ≠ p := by
  unfold InBucket
  rw [known_detach hw hp, addr_detach, type_detach, buckets_detach]
  by_cases hqp : q = p
  · simp [hqp]
  · simp [hqp]

theorem countType_detach (s : UInt8) :
    a.countType s = (a.detach net p).countType s + if (a.heap p).BucketType = s then 1 else 0 := by
  unfold countType
  simp only [type_detach, detach_addrLookup]
  rw [(values_perm_erase (hw.known_iff.mp hp)).countP_eq, List.countP_cons]
  simp

theorem Wf.detach : (a.detach net p).Wf net := by
  have hk := hw.known_wf hp
  refine ⟨hw.shaped.detach hk.range, fun id q h => ?_, fun id q h => ?_, fun id q h => ?_,
    fun t' j k q => ?_, ?_, ?_⟩
  · obtain ⟨h, -⟩ := (lookup_detach hw hp).mp h
    rw [knownAddress.ID, addr_detach]
    exact hw.lookup_ID id q h
  · obtain ⟨h, -⟩ := (lookup_detach hw hp).mp h
    rw [detach_next]
    exact hw.lt_next id q h
  · obtain ⟨h, hqp⟩ := (lookup_detach hw hp).mp h
    rw [detach_heap, Function.update_of_ne hqp]
    exact hw.known id q h
  · rw [detach_bucket hw.shaped hk.type hk.range, inBucket_detach hw hp]
    split_ifs with hj
    · exact hw.lookup_erase_iff ⟨hp, hj.1.symm, hj.2, rfl⟩
    · rw [hw.bucket]
      constructor
      · intro hq
        refine ⟨hq, ?_⟩
        rintro rfl
        exact hj ⟨hq.2.1.symm, hq.2.2.1⟩
      · exact And.left
  · have := countType_detach hw hp bucketTypeNew
    rw [detach_nNew, hw.nNew, this]
    split_ifs <;> simp
  · have := countType_detach hw hp bucketTypeOld
    rw [detach_nOld hk.type, hw.nOld, this]
    split_ifs <;> simp

end detach

/-! ### Taking an address out of one bucket -/

section dropRef

variable (hw : a.Wf net) (hp : a.Known p) (hmem : i ∈ (a.heap p).Buckets)
  (htype : (a.heap p).BucketType = t)
include hw hp hmem htype

theorem dropRef_eq_detach (h : (a.heap p).Buckets = [i]) : a.dropRef net p t i = a.detach net p := by
  have hnd := (hw.known_wf hp).nodup
  simp only [dropRef, detach, knownAddress.removeBucketRef_of_mem hmem hnd]
  simp [h, htype, eraseAll, knownAddress.ID]

section keep

variable (he : (a.heap p).Buckets.erase i ≠ [])
include he

omit htype in
theorem known_dropRef_keep : (a.dropRef net p t i).Known q ↔ a.Known q := by
  unfold Known
  rw [dropRef_addrLookup hmem (hw.known_wf hp).nodup, if_neg he]

theorem inBucket_dropRef_keep {t' : UInt8} {j : Int} {k : Bytes} :
    (a.dropRef net p t i).InBucket net t' j k q ↔ a.InBucket net t' j k q ∧ ¬ (q = p ∧ j = i) := by
  have hnd := (hw.known_wf hp).nodup
  unfold InBucket
  rw [known_dropRef_keep hw hp hmem he, addr_dropRef hmem hnd, type_dropRef hmem hnd,
    buckets_dropRef hmem hnd]
  by_cases hqp : q = p
  · subst hqp
    simp only [↓reduceIte, hnd.mem_erase_iff, true_and]
    tauto
  · simp [hqp]

omit htype in
theorem wf_dropRef_keep : ((a.dropRef net p t i).heap p).Wf := by
  have hk := hw.known_wf hp
  have hnew : (a.heap p).BucketType = bucketTypeNew := by
    rcases hk.type with h | h
    · exact h
    · obtain ⟨b, hb⟩ := List.length_eq_one_iff.mp (hk.old (by simp [knownAddress.isOld, h]))
      rw [hb, List.mem_singleton] at hmem
      exact absurd (by rw [hb, hmem]; simp) he
  rw [dropRef_heap hmem hk.nodup, Function.update_self]
  exact {
    validID := hk.validID
    type := hk.type
    nodup := hk.nodup.erase i
    range := fun b hb => hk.range b (List.erase_subset hb)
    new := fun _ => ⟨List.length_pos_of_ne_nil he,
      List.length_erase_le.trans (hk.new (by simp [knownAddress.isNew, hnew])).2⟩
    old := fun h => absurd h (by simp [knownAddress.isOld, hnew, new_ne_old]) }

theorem Wf.dropRef_keep : (a.dropRef net p t i).Wf net := by
  have hk := hw.known_wf hp
  have hr := hk.range i hmem
  have ht : ValidType t := htype ▸ hk.type
  have hi : i < bucketCount t := htype ▸ hr.2
  have hlookup : (a.dropRef net p t i).addrLookup = a.addrLookup := by
    rw [dropRef_addrLookup hmem hk.nodup, if_neg he]
  have hcount : ∀ s, (a.dropRef net p t i).countType s = a.countType s := fun s => by
    unfold countType
    simp only [type_dropRef hmem hk.nodup, hlookup]
  refine ⟨hw.shaped.dropRef hmem hk.nodup, fun id q h => ?_, fun id q h => ?_, fun id q h => ?_,
    fun t' j k q => ?_, ?_, ?_⟩
  · rw [hlookup] at h
    rw [knownAddress.ID, addr_dropRef hmem hk.nodup]
    exact hw.lookup_ID id q h
  · rw [hlookup] at h
    rw [dropRef_next hmem hk.nodup]
    exact hw.lt_next id q h
  · by_cases hqp : q = p
    · subst hqp
      exact wf_dropRef_keep hw hp hmem he
    · rw [hlookup] at h
      rw [dropRef_heap hmem hk.nodup, Function.update_of_ne hqp]
      exact hw.known id q h
  · have hii : (i.toNat : Int) = i := Int.toNat_of_nonneg hr.1
    rw [dropRef_bucket hw.shaped ht hr.1 hi hmem hk.nodup, inBucket_dropRef_keep hw hp hmem htype he]
    split_ifs with hj
    · obtain ⟨rfl, rfl⟩ := hj
      rw [hw.lookup_erase_iff ⟨hp, htype, by rw [hii]; exact hmem, rfl⟩, hii]
      simp
    · rw [hw.bucket]
      constructor
      · intro hq
        refine ⟨hq, ?_⟩
        rintro ⟨rfl, hji⟩
        exact hj ⟨hq.2.1.symm.trans htype, by omega⟩
      · exact And.left
  · rw [dropRef_nNew hmem hk.nodup, hcount, hw.nNew]
    simp [he]
  · rw [dropRef_nOld ht hmem hk.nodup, hcount, hw.nOld]
    simp [he]

end keep

theorem Wf.dropRef : (a.dropRef net p t i).Wf net := by
  by_cases he : (a.heap p).Buckets.erase i = []
  · rw [dropRef_eq_detach hw hp hmem htype
      ((List.erase_eq_nil_iff.mp he).resolve_left (List.ne_nil_of_mem hmem))]
    exact hw.detach hp
  · exact hw.dropRef_keep hp hmem htype he

theorem Wf.known_dropRef_of_ne (hpq : q ≠ p) : (a.dropRef net p t i).Known q ↔ a.Known q := by
  by_cases he : (a.heap p).Buckets.erase i = []
  · rw [dropRef_eq_detach hw hp hmem htype
      ((List.erase_eq_nil_iff.mp he).resolve_left (List.ne_nil_of_mem hmem)), known_detach hw hp]
    exact ⟨And.left, fun h => ⟨h, hpq⟩⟩
  · exact known_dropRef_keep hw hp hmem he

end dropRef

/-! ### Addresses about to enter the book -/

theorem Wf.fresh_detach (hw : a.Wf net) (hp : a.Known p) : (a.detach net p).Fresh p where
  validID := by rw [addr_detach]; exact (hw.known_wf hp).validID
  lookup := by rw [knownAddress.ID, addr_detach, detach_addrLookup]; exact AList.lookup_erase _ _
  buckets := by rw [buckets_detach, if_pos rfl]
  lt_next := by rw [detach_next]; exact hw.known_lt hp

theorem Fresh.write (hf : a.Fresh p) {ka : knownAddress} (hA : ka.Addr = (a.heap p).Addr)
    (hB : ka.Buckets = []) : (a.write p ka).Fresh p where
  validID := by simpa [hA] using hf.validID
  lookup := by
    rw [knownAddress.ID, heap_write, Function.update_self, hA]
    exact hf.lookup
  buckets := by simpa using hB
  lt_next := hf.lt_next

theorem Fresh.dropRef (hf : a.Fresh p) (hqp : p ≠ q) (hmem : i ∈ (a.heap q).Buckets)
    (hnd : (a.heap q).Buckets.Nodup) : (a.dropRef net q t i).Fresh p where
  validID := by rw [addr_dropRef hmem hnd]; exact hf.validID
  lookup := by
    rw [knownAddress.ID, addr_dropRef hmem hnd, dropRef_addrLookup hmem hnd]
    split_ifs
    · exact lookup_erase_of_eq_none hf.lookup
    · exact hf.lookup
  buckets := by rw [buckets_dropRef hmem hnd, if_neg hqp]; exact hf.buckets
  lt_next := by rw [dropRef_next hmem hnd]; exact hf.lt_next

/-- The book with a new object at the next free pointer. -/
def alloc (a : addrBook) (ka : knownAddress) : addrBook := { a.write a.next ka with next := a.next + 1 }

@[simp] theorem heap_alloc (ka : knownAddress) :
    (a.alloc ka).heap = Function.update a.heap a.next ka := rfl

@[simp] theorem addrLookup_alloc (ka : knownAddress) : (a.alloc ka).addrLookup = a.addrLookup := rfl

@[simp] theorem bucket_alloc (ka : knownAddress) : (a.alloc ka).bucket = a.bucket := rfl

@[simp] theorem next_alloc (ka : knownAddress) : (a.alloc ka).next = a.next + 1 := rfl

theorem Wf.alloc (hw : a.Wf net) (ka : knownAddress) : (a.alloc ka).Wf net := by
  have hfree : ¬ a.Known a.next := fun hp => Nat.lt_irrefl _ (hw.known_lt hp)
  have hw' := hw.write_unknown hfree ka
  exact ⟨⟨hw'.shaped.1, hw'.shaped.2⟩, hw'.lookup_ID, fun id q h => Nat.lt_succ_of_lt (hw'.lt_next id q h),
    hw'.known, hw'.bucket, hw'.nNew, hw'.nOld⟩

theorem fresh_alloc {ka : knownAddress} (hid : validID ka.Addr.ID)
    (hl : a.addrLookup.lookup ka.ID = none) (hb : ka.Buckets = []) : (a.alloc ka).Fresh a.next where
  validID := by simpa using hid
  lookup := by
    rw [knownAddress.ID, heap_alloc, Function.update_self]
    exact hl
  buckets := by simpa using hb
  lt_next := by simp

end addrBook

end Dgrid.Pex
