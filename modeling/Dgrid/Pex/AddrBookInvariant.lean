import Dgrid.Pex.AddrBookWf
import Dgrid.Lib.Transition

/-! The bookkeeping invariant holds of every book the API reaches. Each helper keeps it under
what its callers check first (`Wf.addToNewBucket`, `Wf.addToOldBucket`, `Wf.moveToOld`), each
call of the API keeps it and returns (`Wf.call`), and so every reachable book is well formed and
`GetSelection` fills every slot it returns. -/

namespace Go.Result

theorem foldlM_ok_of_step {α β : Type} {P : β → Prop} {f : β → α → Result β} :
    ∀ (xs : List α) (b : β), (∀ b x, x ∈ xs → P b → ∃ b', f b x = ok b' ∧ P b') → P b →
      ∃ b', xs.foldlM f b = ok b' ∧ P b'
  | [], b, _, hb => ⟨b, rfl, hb⟩
  | x :: xs, b, hf, hb => by
      obtain ⟨b₁, h₁, hb₁⟩ := hf b x List.mem_cons_self hb
      rw [List.foldlM_cons, h₁, ok_bind]
      exact foldlM_ok_of_step xs b₁ (fun b y hy => hf b y (List.mem_cons_of_mem _ hy)) hb₁

theorem exists_bind {α β : Type} {x : Result α} {g : α → Result β} {P : α → Prop}
    {Q : β → Prop} (hx : ∃ b, x = ok b ∧ P b) (hg : ∀ b, P b → ∃ c, g b = ok c ∧ Q c) :
    ∃ c, (x >>= g) = ok c ∧ Q c := by
  obtain ⟨b, rfl, hb⟩ := hx
  exact hg b hb

end Go.Result

namespace Dgrid.Pex
open Go GoMap P2p

theorem fill_foldlM {α β : Type} [Inhabited α] (g : β → α) :
    ∀ (l : List β) (pre rest : List α), l.length ≤ rest.length →
      l.foldlM (fun (acc : List α × Int) x => do
          let xs ← update acc.1 acc.2 fun _ => g x
          pure (xs, acc.2 + 1)) (pre ++ rest, (pre.length : Int)) =
        .ok (pre ++ l.map g ++ rest.drop l.length, ((pre.length + l.length : Nat) : Int))
  | [], pre, rest, _ => by simp
  | x :: l, pre, [], h => by simp at h
  | x :: l, pre, r :: rest, h => by
      have hlt : pre.length < (pre ++ r :: rest).length := by simp
      have hset : (pre ++ r :: rest).set pre.length (g x) = (pre ++ [g x]) ++ rest := by
        simp [List.set_append_right]
      have hlen : (pre.length : Int) + 1 = ((pre ++ [g x]).length : Int) := by simp
      rw [List.foldlM_cons, update_of_lt hlt, Result.ok_bind, Result.pure_eq, Result.ok_bind,
        hset, hlen, fill_foldlM g l (pre ++ [g x]) rest (by simpa using h)]
      simp [Nat.add_assoc, Nat.add_comm 1]

theorem shuffle_step {α : Type} [Inhabited α] (env : Env) {xs : List α} {i : Nat}
    (hi : i < xs.length) :
    ∃ ys, (do
        let r ← env.Intn (xs.length - i)
        let j := r + i
        let xi ← index xs i
        let xj ← index xs j
        let xs ← update xs i fun _ => xj
        update xs j fun _ => xi) = Result.ok ys ∧ ys.length = xs.length ∧ ∀ y ∈ ys, y ∈ xs := by
  have hpos : 0 < (xs.length : Int) - i := by omega
  obtain ⟨hr₀, hr⟩ := env.intn_lt _ hpos
  have hj : (env.intn (xs.length - i) + i).toNat < xs.length := by omega
  have hjeq : env.intn (xs.length - i) + (i : Int) = ((env.intn (xs.length - i) + i).toNat : Int) :=
    (Int.toNat_of_nonneg (by omega)).symm
  rw [Env.Intn, if_neg (by omega), Result.ok_bind]
  dsimp only
  rw [index_of_lt hi, Result.ok_bind, hjeq, index_of_lt hj, Result.ok_bind, update_of_lt hi,
    Result.ok_bind, update_of_lt (by simpa using hj)]
  refine ⟨_, rfl, by simp, fun y hy => ?_⟩
  rcases List.mem_or_eq_of_mem_set hy with hy | rfl
  · rcases List.mem_or_eq_of_mem_set hy with hy | rfl
    · exact hy
    · exact List.getElem_mem _
  · exact List.getElem_mem _

namespace addrBook

variable {net : Net} {env : Env} {a : addrBook} {p q : Ptr} {i : Int}

/-! ### The helpers -/

theorem calcNewBucket_range (addr src : NetAddress) :
    0 ≤ a.calcNewBucket net addr src ∧ a.calcNewBucket net addr src < newBucketCount := by
  simp only [calcNewBucket]
  exact ⟨Int.natCast_nonneg _, Int.ofNat_lt.mpr (Nat.mod_lt _ (by decide))⟩

theorem calcOldBucket_range (addr : NetAddress) :
    0 ≤ a.calcOldBucket net addr ∧ a.calcOldBucket net addr < oldBucketCount := by
  simp only [calcOldBucket]
  exact ⟨Int.natCast_nonneg _, Int.ofNat_lt.mpr (Nat.mod_lt _ (by decide))⟩

theorem addToNewBucket_of_old (h : (a.heap p).isOld) : a.addToNewBucket net env p i = .ok a := by
  simp [addToNewBucket, h]

theorem addToNewBucket_of_mem (hs : a.Shaped) (hi₀ : 0 ≤ i) (hi : i < newBucketCount)
    (hnew : (a.heap p).BucketType = bucketTypeNew)
    (hkey : (a.heap p).Addr.String net ∈ a.bucket bucketTypeNew i.toNat) :
    a.addToNewBucket net env p i = .ok a := by
  have hold : (a.heap p).isOld = false := by simp [knownAddress.isOld, hnew, new_ne_old]
  simp [addToNewBucket, hold, getBucket_eq hs validType_new hi₀ hi, hkey]

theorem values_ne_nil_of_lt {m : Map Bytes Ptr} {n : Nat} (h : n < len m) : values m ≠ [] := by
  intro hv
  have := length_values m
  rw [hv, List.length_nil] at this
  omega

theorem Wf.addToNewBucket (hw : a.Wf net) (hp : a.Known p ∨ a.Fresh p)
    (htype : (a.heap p).BucketType = bucketTypeNew)
    (hcap : (a.heap p).Buckets.length < maxNewBucketsPerAddress) (hi₀ : 0 ≤ i)
    (hi : i < newBucketCount) : ∃ a', a.addToNewBucket net env p i = .ok a' ∧ a'.Wf net := by
  have hold : bucketTypeNew = bucketTypeOld → (a.heap p).Buckets = [] :=
    fun h => absurd h new_ne_old
  by_cases hkey : (a.heap p).Addr.String net ∈ a.bucket bucketTypeNew i.toNat
  · exact ⟨a, addToNewBucket_of_mem hw.shaped hi₀ hi htype hkey, hw⟩
  by_cases hfull : len (a.bucket bucketTypeNew i.toNat) ≤ newBucketSize
  · exact ⟨_, addToNewBucket_of_not_full hw.shaped hi₀ hi htype hkey hfull,
      hw.attach htype hkey hp validType_new hi₀ hi (fun _ => hcap) hold⟩
  -- the bucket is full: `expireNew` takes out one of its addresses, which is not `p`
  have hii : (i.toNat : Int) = i := Int.toNat_of_nonneg hi₀
  obtain ⟨q, hq, hexp⟩ := expireNew_eq net hw.shaped env hi₀ hi
    (values_ne_nil_of_lt (not_le.mp hfull)) (fun q hq => (hw.of_mem_values hq).2.1)
  obtain ⟨hqk, hqt, hqi⟩ := hw.of_mem_values hq
  rw [hii] at hqi
  have hnd := (hw.known_wf hqk).nodup
  have hqp : p ≠ q := by
    rintro rfl
    exact hkey (AList.lookup_isSome.mp (by rw [← htype, hw.lookup_bucket hqk hqi]; rfl))
  have hw' := hw.dropRef hqk hqi hqt
  have hheap : (a.dropRef net q bucketTypeNew i).heap p = a.heap p := by
    rw [dropRef_heap hqi hnd, Function.update_of_ne hqp]
  have hkey' : ((a.dropRef net q bucketTypeNew i).heap p).Addr.String net ∉
      (a.dropRef net q bucketTypeNew i).bucket bucketTypeNew i.toNat := by
    rw [hheap, dropRef_bucket hw.shaped validType_new hi₀ hi hqi hnd, if_pos ⟨rfl, rfl⟩]
    exact fun h => hkey (AList.mem_erase.mp h).2
  have hp' : (a.dropRef net q bucketTypeNew i).Known p ∨ (a.dropRef net q bucketTypeNew i).Fresh p := by
    rcases hp with hp | hf
    · exact .inl ((hw.known_dropRef_of_ne hqk hqi hqt hqp).mpr hp)
    · exact .inr (hf.dropRef hqp hqi hnd)
  exact ⟨_, addToNewBucket_of_full hw.shaped hi₀ hi htype hkey (not_le.mp hfull) hexp hw'.shaped hheap,
    hw'.attach (hheap ▸ htype) hkey' hp' validType_new hi₀ hi (fun _ => hheap ▸ hcap)
      (fun h => absurd h new_ne_old)⟩

theorem Wf.addToOldBucket (hw : a.Wf net) (hf : a.Fresh p)
    (htype : (a.heap p).BucketType = bucketTypeOld) (hi₀ : 0 ≤ i) (hi : i < oldBucketCount) :
    ∃ b a', a.addToOldBucket net p i = .ok (b, a') ∧ a'.Wf net ∧
      (b = false → a' = a ∧ oldBucketSize < len (a.bucket bucketTypeOld i.toNat)) := by
  rw [addToOldBucket_eq hw.shaped hi₀ hi htype hf.buckets]
  split_ifs with hkey hfull
  · exact ⟨true, a, rfl, hw, by simp⟩
  · exact ⟨false, a, rfl, hw, fun _ => ⟨rfl, hfull⟩⟩
  · exact ⟨true, _, rfl, hw.attach htype hkey (.inr hf) validType_old hi₀ (by simpa using hi)
      (fun h => absurd h.symm new_ne_old) (fun _ => hf.buckets), by simp⟩

/-- `moveToOld` keeps the invariant. The address leaves its new buckets and enters its old one;
when that is full, the oldest address there goes first, and `addToNewBucket` refuses it because
its type is still old, so it leaves the book. -/
theorem Wf.moveToOld (hw : a.Wf net) (hp : a.Known p) :
    ∃ a', a.moveToOld net env p = .ok a' ∧ a'.Wf net := by
  have hk := hw.known_wf hp
  by_cases hold : (a.heap p).isOld
  · exact ⟨a, by simp [addrBook.moveToOld, hold], hw⟩
  have hlen : (a.heap p).Buckets.length ≠ 0 := fun h =>
    hw.buckets_ne_nil hp (List.eq_nil_of_length_eq_zero h)
  -- out of its buckets and retyped, the address is fresh again, now old
  have hw₁ := hw.detach hp
  have hf₁ := hw.fresh_detach hp
  set a₂ := (a.detach net p).write p { (a.detach net p).heap p with BucketType := bucketTypeOld }
  have hw₂ : a₂.Wf net := hw₁.write_unknown (hf₁.not_known hw₁) _
  have hf₂ : a₂.Fresh p := hf₁.write rfl hf₁.buckets
  have htype₂ : (a₂.heap p).BucketType = bucketTypeOld := by simp [a₂]
  set idx := a₂.calcOldBucket net (a₂.heap p).Addr
  have hidx : 0 ≤ idx ∧ idx < oldBucketCount := calcOldBucket_range _
  obtain ⟨b, a₃, h₃, hw₃, hb₃⟩ := hw₂.addToOldBucket hf₂ htype₂ hidx.1 hidx.2
  simp only [addrBook.moveToOld, hold, hlen, Bool.false_eq_true, if_false,
    removeFromAllBuckets_eq hw.shaped hk.type hk.range, Result.ok_bind]
  rw [h₃, Result.ok_bind]
  cases b
  · -- the old bucket is full: its oldest address goes, and `addToNewBucket` refuses it
    obtain ⟨rfl, hfull⟩ := hb₃ rfl
    have hi' : idx < bucketCount bucketTypeOld := by simpa using hidx.2
    obtain ⟨q, hq, hpick⟩ := pickOldest_eq hw₂.shaped env validType_old hidx.1 hi'
      (values_ne_nil_of_lt hfull)
    obtain ⟨hqk, hqt, hqi⟩ := hw₂.of_mem_values hq
    rw [Int.toNat_of_nonneg hidx.1] at hqi
    have hpq : p ≠ q := fun h => hf₂.not_known hw₂ (h ▸ hqk)
    have hnd := (hw₂.known_wf hqk).nodup
    have hw₄ := hw₂.dropRef hqk hqi hqt
    have hf₄ : (a₂.dropRef net q bucketTypeOld idx).Fresh p := hf₂.dropRef hpq hqi hnd
    have htype₄ : ((a₂.dropRef net q bucketTypeOld idx).heap p).BucketType = bucketTypeOld := by
      rw [type_dropRef hqi hnd, htype₂]
    have hold₄ : ((a₂.dropRef net q bucketTypeOld idx).heap q).isOld := by
      simp [knownAddress.isOld, type_dropRef hqi hnd, hqt]
    obtain ⟨b', a₅, h₅, hw₅, -⟩ := hw₄.addToOldBucket hf₄ htype₄ hidx.1 hidx.2
    simp only [Bool.false_eq_true, if_false]
    rw [hpick, Result.ok_bind]
    dsimp only
    rw [removeFromBucket_eq hw₂.shaped validType_old hidx.1 hi' hqt, Result.ok_bind,
      addToNewBucket_of_old hold₄, Result.ok_bind, h₅, Result.ok_bind]
    exact ⟨a₅, rfl, hw₅⟩
  · exact ⟨a₃, rfl, hw₃⟩

/-! ### The calls -/

/-- The checks `AddAddress` makes of an address and its source before it looks the address up:
the address has an ID, neither ID is private, the address is not ours, it is routable when the
book is strict, and it is valid. -/
def Admissible (a : addrBook) (net : Net) (addr src : NetAddress) : Prop :=
  addr.HasID ∧ addr.ID ∉ a.privateIDs ∧ src.ID ∉ a.privateIDs ∧ addr.String net ∉ a.ourAddrs ∧
    (a.routabilityStrict → net.Routable addr) ∧ addr.Valid net

theorem Admissible.validID {addr src : NetAddress} (h : a.Admissible net addr src) :
    validID addr.ID := by
  obtain ⟨hid, -, -, -, -, hvalid⟩ := h
  simp only [NetAddress.HasID, NetAddress.Valid, Bool.and_eq_true, Bool.or_eq_true,
    decide_eq_true_eq] at hid hvalid
  exact hvalid.1.resolve_left hid

theorem AddAddress_of_not_admissible {addr src : NetAddress} (h : ¬ a.Admissible net addr src) :
    ∃ e, a.AddAddress net env (some addr) (some src) = .ok (some e, a) := by
  simp only [addrBook.AddAddress]
  -- the checks in the source's order: the first that fails returns its error
  by_cases h₁ : addr.HasID = true
  swap
  · exact ⟨_, by rw [if_pos (by simpa using h₁)]⟩
  rw [if_neg (by simpa using h₁)]
  by_cases h₂ : addr.ID ∈ a.privateIDs
  · exact ⟨_, by rw [if_pos h₂]⟩
  rw [if_neg h₂]
  by_cases h₃ : src.ID ∈ a.privateIDs
  · exact ⟨_, by rw [if_pos h₃]⟩
  rw [if_neg h₃]
  by_cases h₄ : addr.String net ∈ a.ourAddrs
  · exact ⟨_, by rw [if_pos h₄]⟩
  rw [if_neg h₄]
  by_cases h₅ : (a.routabilityStrict && !net.Routable addr) = true
  · exact ⟨_, by rw [if_pos h₅]⟩
  rw [if_neg h₅]
  by_cases h₆ : addr.Valid net = true
  · -- every check passed, against `h`
    exfalso
    apply h
    exact ⟨h₁, h₂, h₃, h₄, fun hs => by simpa [hs] using h₅, h₆⟩
  · exact ⟨_, by rw [if_pos (by simpa using h₆)]⟩

theorem AddAddress_fresh {addr src : NetAddress} (h : a.Admissible net addr src)
    (hl : a.addrLookup.lookup addr.ID = none) :
    a.AddAddress net env (some addr) (some src) =
      ((a.alloc (newKnownAddress addr src env.now)).addToNewBucket net env a.next
        ((a.alloc (newKnownAddress addr src env.now)).calcNewBucket net addr src) >>=
          fun a => pure (none, a)) := by
  obtain ⟨h₁, h₂, h₃, h₄, h₅, h₆⟩ := h
  have h₅' : (a.routabilityStrict && !net.Routable addr) = false := by
    cases hs : a.routabilityStrict <;> simp_all
  simp only [addrBook.AddAddress, h₁, h₂, h₃, h₄, h₅', h₆, hl, Bool.not_true, Bool.false_eq_true,
    if_false]
  rfl

theorem AddAddress_known {addr src : NetAddress} (h : a.Admissible net addr src)
    (hl : a.addrLookup.lookup addr.ID = some p) :
    a.AddAddress net env (some addr) (some src) =
      if (a.heap p).isOld && (a.heap p).Addr.Equals net addr then .ok (none, a)
      else if (a.heap p).Buckets.length = maxNewBucketsPerAddress then .ok (none, a)
      else (do
        let r ← env.Int31n (Int32.ofInt (2 * (a.heap p).Buckets.length))
        if r ≠ 0 then pure (none, a)
        else do
          let a ← a.addToNewBucket net env p (a.calcNewBucket net addr src)
          pure (none, a)) := by
  obtain ⟨h₁, h₂, h₃, h₄, h₅, h₆⟩ := h
  have h₅' : (a.routabilityStrict && !net.Routable addr) = false := by
    cases hs : a.routabilityStrict <;> simp_all
  simp only [addrBook.AddAddress, h₁, h₂, h₃, h₄, h₅', h₆, hl, Bool.not_true, Bool.false_eq_true,
    if_false]

theorem int32_double_pos {n : Nat} (h₁ : 1 ≤ n) (h₂ : n ≤ 3) : ¬ Int32.ofInt (2 * (n : Int)) ≤ 0 := by
  interval_cases n <;> decide

theorem Wf.buckets_length_of_ne (hw : a.Wf net) (hp : a.Known p)
    (h : (a.heap p).Buckets.length ≠ maxNewBucketsPerAddress) :
    1 ≤ (a.heap p).Buckets.length ∧ (a.heap p).Buckets.length ≤ 3 := by
  have hk := hw.known_wf hp
  rcases hk.type with ht | ht
  · have := hk.new (by simp [knownAddress.isNew, ht])
    simp only [maxNewBucketsPerAddress] at this h
    omega
  · have := hk.old (by simp [knownAddress.isOld, ht])
    omega

variable (env) in
theorem Wf.AddAddress (hw : a.Wf net) (addr src : Option NetAddress) :
    ∃ e a', a.AddAddress net env addr src = .ok (e, a') ∧ a'.Wf net := by
  rcases addr with _ | addr
  · exact ⟨_, a, rfl, hw⟩
  rcases src with _ | src
  · exact ⟨_, a, rfl, hw⟩
  by_cases hadm : a.Admissible net addr src
  swap
  · obtain ⟨e, he⟩ : ∃ e, a.AddAddress net env (some addr) (some src) = .ok (some e, a) :=
      AddAddress_of_not_admissible hadm
    exact ⟨_, a, he, hw⟩
  cases hl : a.addrLookup.lookup addr.ID with
  | none =>
      -- a fresh address: a new object, fresh in the book, then `addToNewBucket`
      let ka := newKnownAddress addr src env.now
      have hf : (a.alloc ka).Fresh a.next := fresh_alloc hadm.validID hl rfl
      have hidx : 0 ≤ (a.alloc ka).calcNewBucket net addr src ∧
          (a.alloc ka).calcNewBucket net addr src < newBucketCount := calcNewBucket_range addr src
      obtain ⟨a', h', hw'⟩ : ∃ a', (a.alloc ka).addToNewBucket net env a.next
          ((a.alloc ka).calcNewBucket net addr src) = .ok a' ∧ a'.Wf net :=
        (hw.alloc ka).addToNewBucket (.inr hf) (by simp [ka, newKnownAddress])
          (by simp [ka, newKnownAddress, maxNewBucketsPerAddress]) hidx.1 hidx.2
      rw [AddAddress_fresh hadm hl, h', Result.ok_bind]
      exact ⟨none, a', rfl, hw'⟩
  | some p =>
      have hp : a.Known p := ⟨_, hl⟩
      rw [AddAddress_known hadm hl]
      split_ifs with h₁ h₂
      · exact ⟨none, a, rfl, hw⟩
      · exact ⟨none, a, rfl, hw⟩
      obtain ⟨hlen₁, hlen₂⟩ := hw.buckets_length_of_ne hp h₂
      rw [Env.Int31n, if_neg (int32_double_pos hlen₁ hlen₂), Result.ok_bind]
      split_ifs with hr
      · exact ⟨none, a, rfl, hw⟩
      by_cases hold : (a.heap p).isOld
      · rw [addToNewBucket_of_old hold, Result.ok_bind]
        exact ⟨none, a, rfl, hw⟩
      have htype : (a.heap p).BucketType = bucketTypeNew := by
        rcases (hw.known_wf hp).type with ht | ht
        · exact ht
        · simp [knownAddress.isOld, ht] at hold
      have hidx : 0 ≤ a.calcNewBucket net addr src ∧ a.calcNewBucket net addr src < newBucketCount :=
        calcNewBucket_range addr src
      obtain ⟨a', h', hw'⟩ : ∃ a', a.addToNewBucket net env p (a.calcNewBucket net addr src) =
          .ok a' ∧ a'.Wf net :=
        hw.addToNewBucket (.inl hp) htype (by simp only [maxNewBucketsPerAddress]; omega)
          hidx.1 hidx.2
      rw [h', Result.ok_bind]
      exact ⟨none, a', rfl, hw'⟩

theorem Wf.RemoveAddress (hw : a.Wf net) (addr : NetAddress) :
    ∃ a', a.RemoveAddress net addr = .ok a' ∧ a'.Wf net := by
  unfold addrBook.RemoveAddress
  cases hl : a.addrLookup.lookup addr.ID with
  | none => exact ⟨a, rfl, hw⟩
  | some p =>
      have hk := hw.known_wf ⟨_, hl⟩
      exact ⟨_, removeFromAllBuckets_eq hw.shaped hk.type hk.range, hw.detach ⟨_, hl⟩⟩

theorem Wf.MarkGood (hw : a.Wf net) (id : Bytes) :
    ∃ a', a.MarkGood net env id = .ok a' ∧ a'.Wf net := by
  unfold addrBook.MarkGood
  cases hl : a.addrLookup.lookup id with
  | none => exact ⟨a, rfl, hw⟩
  | some p =>
      have hw₁ : (a.write p ((a.heap p).markGood env.now)).Wf net := hw.write_times rfl rfl rfl
      dsimp only
      split_ifs
      · exact hw₁.moveToOld ⟨id, hl⟩
      · exact ⟨_, rfl, hw₁⟩

theorem Wf.MarkAttempt (hw : a.Wf net) (addr : NetAddress) : (a.MarkAttempt env addr).Wf net := by
  unfold addrBook.MarkAttempt
  cases a.addrLookup.lookup addr.ID with
  | none => exact hw
  | some p => exact hw.write_times rfl rfl rfl

/-! ### Runs of calls -/

/-- The calls of the book's API that change it. -/
inductive Call where
  | AddOurAddress (addr : NetAddress)
  | AddPrivateIDs (IDs : List Bytes)
  | AddAddress (addr src : Option NetAddress)
  | RemoveAddress (addr : NetAddress)
  | MarkGood (id : Bytes)
  | MarkAttempt (addr : NetAddress)
  | MarkBad (addr : NetAddress)

variable (net env) in
/-- The book after a call, at the clock, map orders and random numbers of `env`. -/
def call (a : addrBook) : Call → Result addrBook
  | .AddOurAddress addr => .ok (a.AddOurAddress net addr)
  | .AddPrivateIDs IDs => .ok (a.AddPrivateIDs IDs)
  | .AddAddress addr src => do
      let (_, a) ← a.AddAddress net env addr src
      pure a
  | .RemoveAddress addr => a.RemoveAddress net addr
  | .MarkGood id => a.MarkGood net env id
  | .MarkAttempt addr => .ok (a.MarkAttempt env addr)
  | .MarkBad addr => a.RemoveAddress net addr

/-- A book as `NewAddrBook` makes it. -/
def Initial (a : addrBook) : Prop := ∃ key routabilityStrict, a = NewAddrBook key routabilityStrict

variable (net) in
/-- The books that calls from `NewAddrBook` reach, whatever the clock, the map orders and the
random numbers are at each call. -/
def Reachable (a : addrBook) : Prop :=
  Transition.Reachable Initial (fun a a' => ∃ env c, a.call net env c = .ok a') a

@[simp] theorem bucket_NewAddrBook (key : Bytes) (routabilityStrict : Bool) (t : UInt8) (j : Nat) :
    (NewAddrBook key routabilityStrict).bucket t j = ∅ := by
  unfold bucket
  split_ifs <;> simp [NewAddrBook, List.getD_eq_getElem?_getD]

theorem NewAddrBook_wf (key : Bytes) (routabilityStrict : Bool) :
    (NewAddrBook key routabilityStrict).Wf net := by
  -- the lookup and the buckets are empty, so every field about their entries holds vacuously
  have hl : ∀ id p, (NewAddrBook key routabilityStrict).addrLookup.lookup id ≠ some p := by
    simp [NewAddrBook]
  have hb := bucket_NewAddrBook key routabilityStrict
  refine ⟨⟨by simp [NewAddrBook], by simp [NewAddrBook]⟩, fun id p h => absurd h (hl id p),
    fun id p h => absurd h (hl id p), fun id p h => absurd h (hl id p), fun t j k p => ?_, rfl, rfl⟩
  rw [hb]
  simp only [AList.lookup_empty, reduceCtorEq, false_iff]
  rintro ⟨⟨id, h⟩, -⟩
  exact hl id p h

theorem Wf.AddOurAddress (hw : a.Wf net) (addr : NetAddress) : (a.AddOurAddress net addr).Wf net :=
  ⟨⟨hw.shaped.1, hw.shaped.2⟩, hw.lookup_ID, hw.lt_next, hw.known, hw.bucket, hw.nNew, hw.nOld⟩

theorem Wf.AddPrivateIDs (hw : a.Wf net) (IDs : List Bytes) : (a.AddPrivateIDs IDs).Wf net :=
  ⟨⟨hw.shaped.1, hw.shaped.2⟩, hw.lookup_ID, hw.lt_next, hw.known, hw.bucket, hw.nNew, hw.nOld⟩

variable (env) in
theorem Wf.call (hw : a.Wf net) (c : Call) : ∃ a', a.call net env c = .ok a' ∧ a'.Wf net := by
  cases c with
  | AddOurAddress addr => exact ⟨_, rfl, hw.AddOurAddress addr⟩
  | AddPrivateIDs IDs => exact ⟨_, rfl, hw.AddPrivateIDs IDs⟩
  | AddAddress addr src =>
      obtain ⟨e, a', h, hw'⟩ := hw.AddAddress env addr src
      exact ⟨a', by simp [addrBook.call, h], hw'⟩
  | RemoveAddress addr => exact hw.RemoveAddress addr
  | MarkGood id => exact hw.MarkGood id
  | MarkAttempt addr => exact ⟨_, rfl, hw.MarkAttempt addr⟩
  | MarkBad addr => exact hw.RemoveAddress addr

theorem Reachable.wf (h : a.Reachable net) : a.Wf net :=
  Transition.Reachable.invariant (by rintro _ ⟨key, strict, rfl⟩; exact NewAddrBook_wf key strict)
    (fun _ _ _ hw ⟨env, c, hc⟩ => by
      obtain ⟨a', h', hw'⟩ := hw.call env c
      rw [h'] at hc
      cases hc
      exact hw') h

/-! ### `GetSelection` -/

theorem Wf.size_eq (hw : a.Wf net) : a.size = len a.addrLookup := by
  rw [size, hw.nNew, hw.nOld, countType, countType, ← length_values, ← Nat.cast_add,
    List.length_eq_countP_add_countP (fun q => decide ((a.heap q).BucketType = bucketTypeNew))]
  congr 2
  refine List.countP_congr fun q hq => ?_
  rcases (hw.known_wf (mem_values_known hq)).type with h | h
  · simp [h, new_ne_old]
  · simp [h, new_ne_old.symm]

theorem numAddresses_range {bookSize : Int} (h : 0 < bookSize) :
    0 < numAddresses bookSize ∧ numAddresses bookSize ≤ bookSize := by
  have htd : (bookSize * 23).tdiv 100 = bookSize * 23 / 100 :=
    Int.tdiv_eq_ediv_of_nonneg (by omega)
  simp only [numAddresses, maxGetSelection, minGetSelection, getSelectionPercent, htd]
  omega

theorem Wf.GetSelection (hw : a.Wf net) (env : Env) :
    ∃ sel, a.GetSelection env = .ok sel ∧ ∀ x ∈ sel, x.isSome := by
  have hsize := hw.size_eq (a := a)
  simp only [addrBook.GetSelection]
  split_ifs with h₀ h₁
  · omega
  · exact ⟨[], rfl, by simp⟩
  obtain ⟨hn₀, hn⟩ := numAddresses_range (not_le.mp h₀)
  -- the fill writes the address of every known object, in the order the runtime visits them
  have hlen : (env.order (values a.addrLookup)).length = a.size.toNat := by
    rw [(env.order_perm _).length_eq, length_values]
    omega
  have hfill := fill_foldlM (fun p => some (a.heap p).Addr) (env.order (values a.addrLookup)) []
    (List.replicate a.size.toNat none) (by simp [hlen])
  simp only [List.nil_append, List.length_nil, Nat.cast_zero, hlen,
    List.drop_replicate, Nat.sub_self, List.replicate_zero, List.append_nil] at hfill
  rw [hfill, Result.ok_bind]
  dsimp only
  -- the shuffle swaps entries of the full slice, and the slice keeps its first entries
  refine Result.exists_bind
    (P := fun ys : List (Option NetAddress) => ys.length = a.size.toNat ∧ ∀ y ∈ ys, y.isSome)
    (Result.foldlM_ok_of_step _ _ (fun xs k hk ⟨hxs, hsome⟩ => ?_) ⟨by simp [hlen], by simp⟩)
    (fun ys ⟨hys_len, hys_some⟩ => ?_)
  · have hk' : k < xs.length := by rw [List.mem_range] at hk; omega
    obtain ⟨ys, h, hlen', hmem⟩ := shuffle_step env hk'
    exact ⟨ys, h, hlen'.trans hxs, fun y hy => hsome y (hmem y hy)⟩
  · have hslice : slice ys 0 (numAddresses a.size) =
        .ok ((ys.take (numAddresses a.size).toNat).drop (0 : Int).toNat) :=
      if_pos ⟨le_refl _, hn₀.le, by omega⟩
    exact ⟨_, hslice, fun x hx => hys_some x (List.mem_of_mem_take (List.mem_of_mem_drop hx))⟩

/-! ### Every reachable book -/

/-- A network where every IP is valid, every address routable and none local, and whose hash is
constant, so that every address falls in the same buckets. -/
def flatNet : Net where
  DialString := fun _ => [49, 58, 49]
  validIP := fun _ => true
  Routable := fun _ => true
  Local := fun _ => false
  ipGroup := fun _ => []
  sha256 := fun _ => List.replicate 32 0
  sha256_length := fun _ => List.length_replicate

/-- A runtime that visits maps in their own order, draws zeros and reads the clock at `now`. -/
def firstEnv (now : Time) : Env where
  now := now
  order := id
  order_perm := List.Perm.refl
  int31n := fun _ => 0
  int31n_lt := fun _ h => ⟨by decide, h⟩
  intn := fun _ => 0
  intn_lt := fun _ h => ⟨le_refl _, h⟩

/-- Two addresses heard of from one source, then the first one marked good: one new and one
old address, in the buckets `flatNet` gives every address. -/
theorem reachable_marked :
    ∃ a : addrBook, a.Reachable flatNet ∧ a.nNew = 1 ∧ a.nOld = 1 := by
  let n₁ : NetAddress := ⟨List.replicate 40 48, [1, 2, 3, 4], 26656⟩
  let n₂ : NetAddress := ⟨List.replicate 39 48 ++ [49], [1, 2, 3, 5], 26656⟩
  let src : NetAddress := ⟨List.replicate 39 48 ++ [50], [1, 2, 3, 6], 26656⟩
  have hrun : ((NewAddrBook [] false).call flatNet (firstEnv 0) (.AddAddress (some n₁) (some src))
      >>= fun a₁ => a₁.call flatNet (firstEnv 0) (.AddAddress (some n₂) (some src))
      >>= fun a₂ => a₂.call flatNet (firstEnv 0) (.MarkGood n₁.ID)
      >>= fun a₃ => pure (a₃.nNew, a₃.nOld)) = .ok (1, 1) := by
    decide +kernel
  obtain ⟨a₁, h₁, hrun⟩ := Result.bind_eq_ok.mp hrun
  obtain ⟨a₂, h₂, hrun⟩ := Result.bind_eq_ok.mp hrun
  obtain ⟨a₃, h₃, hrun⟩ := Result.bind_eq_ok.mp hrun
  simp only [Result.pure_eq, Result.ok.injEq, Prod.mk.injEq] at hrun
  exact ⟨a₃, .step (.step (.step (.init ⟨[], false, rfl⟩) ⟨_, _, h₁⟩) ⟨_, _, h₂⟩) ⟨_, _, h₃⟩,
    hrun.1, hrun.2⟩

/-- Every book the API reaches keeps its books: the lookup keys each known address by its ID,
each bucket holds under its text exactly the known addresses of its type whose list names it,
the lists are duplicate free with one to four new buckets or one old bucket, and the counters
count the known addresses of each type. So `GetSelection` returns, with no `nil` address. -/
theorem reachable_wf_GetSelection (h : a.Reachable net) (env : Env) :
    a.Wf net ∧ ∃ sel, a.GetSelection env = .ok sel ∧ ∀ x ∈ sel, x.isSome :=
  ⟨h.wf, h.wf.GetSelection env⟩

theorem reachable_wf_GetSelection_marked :
    ∃ a : addrBook, a.Reachable flatNet ∧ a.nNew = 1 ∧ a.nOld = 1 ∧
      a.Wf flatNet ∧ ∃ sel, a.GetSelection (firstEnv 0) = .ok sel ∧ ∀ x ∈ sel, x.isSome := by
  obtain ⟨a, hr, hnew, hold⟩ := reachable_marked
  exact ⟨a, hr, hnew, hold, reachable_wf_GetSelection hr (firstEnv 0)⟩

/-! ### A full old bucket -/

variable (net env) in
/-- The book after the calls `cs`, in order, each at `env`. -/
def runCalls (a : addrBook) (cs : List Call) : Result addrBook := cs.foldlM (fun a c => a.call net env c) a

theorem Reachable.runCalls (h : a.Reachable net) :
    ∀ (cs : List Call) {a' : addrBook}, a.runCalls net env cs = .ok a' → a'.Reachable net := by
  intro cs
  induction cs generalizing a with
  | nil =>
    intro a' hrun
    cases hrun
    exact h
  | cons c cs ih =>
    intro a' hrun
    obtain ⟨a₁, h₁, hrest⟩ := Result.bind_eq_ok.mp hrun
    exact ih (Transition.Reachable.step h ⟨env, c, h₁⟩) hrest

/-- The hex digit of `d < 16`. -/
def hexDigit (d : Nat) : UInt8 := if d < 10 then (48 + d).toUInt8 else (87 + d).toUInt8

/-- The address whose ID is the two hex digits of `i < 256` followed by zeros. -/
def fillAddr (i : Nat) : NetAddress :=
  ⟨[hexDigit (i / 16), hexDigit (i % 16)] ++ List.replicate 38 48, [1, 2, 3, 4], 26656⟩

/-- The source every address of `fillCalls` is heard of from. -/
def fillSrc : NetAddress := ⟨List.replicate 40 98, [1, 2, 3, 5], 26656⟩

/-- Under `flatNet`, a book of 33 addresses, one of them marked good, has 32 new addresses and 1
old one, and `numAddresses` is 32. With the bias at 100 the new pick asks for all 32 and gets
them. The old pick then asks for `numAddresses - 32 = 0` addresses. Yet `randomPickAddresses`
appends an address before it compares the count with `num`, so it still returns the old
address, and the selection holds 33 distinct addresses. -/
theorem GetSelectionWithBias_over_numAddresses :
    ∃ a : addrBook, a.Reachable flatNet ∧ a.nNew = 32 ∧ a.nOld = 1 ∧ numAddresses a.size = 32 ∧
      ∃ sel, a.GetSelectionWithBias flatNet (firstEnv 0) 100 = .ok sel ∧ sel.length = 33 ∧
        sel.Nodup := by
  have hrun : ((NewAddrBook [] false).runCalls flatNet (firstEnv 0)
      ((List.range 33).map (fun i => .AddAddress (some (fillAddr i)) (some fillSrc)) ++
        [.MarkGood (fillAddr 0).ID]) >>= fun a =>
      a.GetSelectionWithBias flatNet (firstEnv 0) 100 >>= fun sel =>
      pure (a.nNew, a.nOld, numAddresses a.size, sel.length, decide sel.Nodup)) =
        .ok (32, 1, 32, 33, true) := by
    decide +kernel
  obtain ⟨a, h, hrun⟩ := Result.bind_eq_ok.mp hrun
  obtain ⟨sel, hsel, hrun⟩ := Result.bind_eq_ok.mp hrun
  simp only [Result.pure_eq, Result.ok.injEq, Prod.mk.injEq, decide_eq_true_eq] at hrun
  obtain ⟨hnew, hold, hn, hlen, hnd⟩ := hrun
  exact ⟨a, Reachable.runCalls (.init ⟨[], false, rfl⟩) _ h, hnew, hold, hn, sel, hsel, hlen, hnd⟩

end addrBook

end Dgrid.Pex
