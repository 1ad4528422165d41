import Dgrid.Blockchain.Storage
import Dgrid.Lib.LRU
import Dgrid.Lib.Transition

/-! `mapTxCache` is an LRU set of hashes of bounded size. Its list holds each hash once, least
recently pushed or refreshed first, at an address its map sends the hash to; each call acts on
that list as the abstract LRU set acts on its content. -/

namespace Dgrid.Blockchain
open Go

variable {κ : Type} [DecidableEq κ] {txKey : Bytes → κ}

namespace mapTxCache

/-- The hashes in the list, least recently pushed or refreshed first. -/
def hashes (cache : mapTxCache κ) : List κ := cache.list.elems.map Prod.snd

/-- The list holds its hashes at distinct addresses below the next free one, and the map sends a
hash to an address exactly when the list holds the hash there. -/
structure WF (cache : mapTxCache κ) : Prop where
  addrs : (cache.list.elems.map Prod.fst).Nodup
  fresh : ∀ x ∈ cache.list.elems, x.1 < cache.list.nextAddr
  map : ∀ k e, cache.map_ k = some e ↔ (e, k) ∈ cache.list.elems

variable {cache : mapTxCache κ} {k k' : κ} {e e' : Nat}

omit [DecidableEq κ] in
theorem WF.hash_unique (hw : cache.WF) (h : (e, k) ∈ cache.list.elems)
    (h' : (e, k') ∈ cache.list.elems) : k = k' :=
  (Prod.mk.inj (List.inj_on_of_nodup_map hw.addrs h h' rfl)).2

omit [DecidableEq κ] in
theorem WF.addr_unique (hw : cache.WF) (h : (e, k) ∈ cache.list.elems)
    (h' : (e', k) ∈ cache.list.elems) : e = e' :=
  Option.some.inj (((hw.map k e).mpr h).symm.trans ((hw.map k e').mpr h'))

omit [DecidableEq κ] in
theorem WF.nodup (hw : cache.WF) : cache.hashes.Nodup := by
  refine List.Nodup.map_on (fun x hx y hy hxy => ?_) (hw.addrs.of_map _)
  obtain ⟨e, k⟩ := x
  obtain ⟨e', k'⟩ := y
  obtain rfl : k = k' := hxy
  obtain rfl := hw.addr_unique hx hy
  rfl

omit [DecidableEq κ] in
theorem WF.mem_hashes (hw : cache.WF) : k ∈ cache.hashes ↔ ∃ e, cache.map_ k = some e := by
  simp only [hashes, List.mem_map, hw.map]
  constructor
  · rintro ⟨⟨e, k'⟩, hx, rfl⟩
    exact ⟨e, hx⟩
  · rintro ⟨e, hx⟩
    exact ⟨(e, k), hx, rfl⟩

omit [DecidableEq κ] in
theorem newMapTxCache_wf (cacheSize : Int) : (newMapTxCache cacheSize : mapTxCache κ).WF where
  addrs := by simp [newMapTxCache, GoList.New]
  fresh := by simp [newMapTxCache, GoList.New]
  map := by simp [newMapTxCache, GoList.New]

omit [DecidableEq κ] in
theorem Reset_wf : cache.Reset.WF ∧ cache.Reset.hashes = [] := by
  refine ⟨⟨by simp [Reset, GoList.Init], by simp [Reset, GoList.Init], ?_⟩, rfl⟩
  simp [Reset, GoList.Init]

theorem WF.drop (hw : cache.WF) (hm : (e, k) ∈ cache.list.elems) :
    ({ cache with map_ := Function.update cache.map_ k none, list := cache.list.Remove e } :
      mapTxCache κ).WF ∧
    ({ cache with map_ := Function.update cache.map_ k none, list := cache.list.Remove e } :
      mapTxCache κ).hashes = cache.hashes.erase k := by
  refine ⟨⟨?_, fun x hx => hw.fresh x (List.mem_of_mem_filter hx), fun k' e' => ?_⟩,
    GoList.map_snd_filter_addr hw.addrs hw.nodup hm⟩
  · exact (List.Sublist.map Prod.fst List.filter_sublist).nodup hw.addrs
  simp only [GoList.Remove, List.mem_filter, Function.update_apply, decide_eq_true_eq]
  split_ifs with hk'
  · -- `k` was held at `e` only
    subst hk'
    simp only [false_iff, not_and, not_not]
    exact fun h' => (hw.addr_unique hm h').symm
  · rw [hw.map]
    refine ⟨fun h' => ⟨h', fun hee => hk' ?_⟩, fun h' => h'.1⟩
    subst hee
    exact (hw.hash_unique hm h').symm

theorem WF.pushBack (hw : cache.WF) (hk : k ∉ cache.hashes) :
    ({ cache with map_ := Function.update cache.map_ k (some (cache.list.PushBack k).1),
                  list := (cache.list.PushBack k).2 } : mapTxCache κ).WF ∧
    ({ cache with map_ := Function.update cache.map_ k (some (cache.list.PushBack k).1),
                  list := (cache.list.PushBack k).2 } : mapTxCache κ).hashes = cache.hashes ++ [k] := by
  have hnew : cache.list.nextAddr ∉ cache.list.elems.map Prod.fst := fun h => by
    obtain ⟨x, hx, hxe⟩ := List.mem_map.mp h
    exact absurd (hw.fresh x hx) (by omega)
  refine ⟨⟨?_, ?_, fun k' e' => ?_⟩, by simp [hashes, GoList.PushBack]⟩
  · simpa [GoList.PushBack] using hw.addrs.append (List.nodup_singleton _)
      (List.disjoint_singleton.mpr hnew)
  · simp only [GoList.PushBack, List.mem_append, List.mem_singleton]
    rintro x (hx | rfl)
    · exact Nat.lt_succ_of_lt (hw.fresh x hx)
    · exact Nat.lt_succ_self _
  simp only [GoList.PushBack, Function.update_apply, List.mem_append, List.mem_singleton,
    Prod.mk.injEq]
  split_ifs with hk'
  · subst hk'
    have : (e', k') ∉ cache.list.elems := fun h => hk (List.mem_map_of_mem (f := Prod.snd) h)
    simp [this, eq_comm]
  · simp [hw.map, hk']

variable (txKey) in
theorem Remove_spec (hw : cache.WF) (tx : Bytes) :
    (cache.Remove txKey tx).WF ∧
      (cache.Remove txKey tx).hashes = LRU.remove cache.hashes (txKey tx) ∧
      (cache.Remove txKey tx).size = cache.size := by
  cases hk : cache.map_ (txKey tx) with
  | none =>
      have hR : cache.Remove txKey tx =
          { cache with map_ := Function.update cache.map_ (txKey tx) none } := by
        simp [Remove, hk]
      have hnot : txKey tx ∉ cache.hashes := by simp [hw.mem_hashes, hk]
      rw [hR]
      refine ⟨⟨hw.addrs, hw.fresh, fun k' e' => ?_⟩, (List.erase_of_not_mem hnot).symm, rfl⟩
      simp only [Function.update_apply]
      split_ifs with hk'
      · subst hk'
        simp [← hw.map, hk]
      · exact hw.map k' e'
  | some e =>
      have hR : cache.Remove txKey tx =
          { cache with map_ := Function.update cache.map_ (txKey tx) none,
                       list := cache.list.Remove e } := by
        simp [Remove, hk]
      rw [hR]
      obtain ⟨hw', hh⟩ := hw.drop ((hw.map _ e).mp hk)
      exact ⟨hw', hh, rfl⟩

theorem WF.moveToBack (hw : cache.WF) (hm : (e, k) ∈ cache.list.elems) :
    ({ cache with list := cache.list.MoveToBack e } : mapTxCache κ).WF ∧
    ({ cache with list := cache.list.MoveToBack e } : mapTxCache κ).hashes =
      cache.hashes.erase k ++ [k] := by
  have hmove : (cache.list.MoveToBack e).elems =
      cache.list.elems.filter (·.1 ≠ e) ++ [(e, k)] := by
    simp [GoList.MoveToBack, GoList.find?_addr hw.addrs hm]
  -- the same elements, in another order
  have hmem : ∀ x, x ∈ (cache.list.MoveToBack e).elems ↔ x ∈ cache.list.elems := by
    intro x
    simp only [hmove, List.mem_append, List.mem_filter, List.mem_singleton, decide_eq_true_eq]
    constructor
    · rintro (⟨hx, -⟩ | rfl)
      · exact hx
      · exact hm
    · intro hx
      by_cases hxe : x.1 = e
      · obtain ⟨x₁, x₂⟩ := x
        obtain rfl : x₁ = e := hxe
        exact .inr (by rw [hw.hash_unique hx hm])
      · exact .inl ⟨hx, hxe⟩
  have hnext : (cache.list.MoveToBack e).nextAddr = cache.list.nextAddr := by
    simp [GoList.MoveToBack, GoList.find?_addr hw.addrs hm]
  refine ⟨⟨?_, fun x hx => hnext ▸ hw.fresh x ((hmem x).mp hx), fun k' e' => ?_⟩, ?_⟩
  · rw [hmove, List.map_append]
    refine ((List.Sublist.map Prod.fst List.filter_sublist).nodup hw.addrs).append
      (List.nodup_singleton _) (List.disjoint_singleton.mpr fun h => ?_)
    obtain ⟨x, hx, hxe⟩ := List.mem_map.mp h
    exact absurd hxe (by simpa using (List.mem_filter.mp hx).2)
  · exact (hw.map k' e').trans (hmem _).symm
  · show (cache.list.MoveToBack e).elems.map Prod.snd = _
    rw [hmove, List.map_append, GoList.map_snd_filter_addr hw.addrs hw.nodup hm]
    rfl

variable (txKey) in
theorem Push_spec (hw : cache.WF) (hsize : 1 ≤ cache.size) (tx : Bytes) :
    ∃ cache', cache.Push txKey tx =
        .ok ((LRU.push cache.size.toNat cache.hashes (txKey tx)).1, cache') ∧
      cache'.WF ∧ cache'.hashes = (LRU.push cache.size.toNat cache.hashes (txKey tx)).2 ∧
      cache'.size = cache.size := by
  cases hk : cache.map_ (txKey tx) with
  | some e =>
      -- a hash held is refreshed
      have hm := (hw.map _ e).mp hk
      have hin : txKey tx ∈ cache.hashes := hw.mem_hashes.mpr ⟨e, hk⟩
      obtain ⟨hw', hh⟩ := hw.moveToBack hm
      exact ⟨_, by simp [Push, hk, LRU.push, hin], hw', by simp [hh, LRU.push, hin], rfl⟩
  | none =>
      have hin : txKey tx ∉ cache.hashes := by simp [hw.mem_hashes, hk]
      have hlen : cache.hashes.length = cache.list.Len := by simp [hashes, GoList.Len]
      by_cases hfull : (cache.list.Len : Int) ≥ cache.size
      · -- a full cache first drops its least recent hash, at the front of the list
        obtain ⟨⟨popped, ph⟩, rest, hel⟩ : ∃ x rest, cache.list.elems = x :: rest := by
          cases h : cache.list.elems with
          | nil => simp [GoList.Len, h] at hfull; omega
          | cons x rest => exact ⟨x, rest, rfl⟩
        have hm : (popped, ph) ∈ cache.list.elems := by simp [hel]
        obtain ⟨hw₁, hh₁⟩ := hw.drop hm
        have htail : cache.hashes.erase ph = cache.hashes.tail := by
          simp [hashes, hel]
        have hin₁ : txKey tx ∉ cache.hashes.tail := fun h => hin (List.mem_of_mem_tail h)
        obtain ⟨hw₂, hh₂⟩ := hw₁.pushBack (hh₁ ▸ htail ▸ hin₁)
        refine ⟨_, ?_, hw₂, ?_, rfl⟩
        · simp [Push, hk, hfull, GoList.Front, hel, LRU.push_fst, hin]
        · rw [hh₂, hh₁, htail, LRU.push_of_full hin (by omega)]
      · obtain ⟨hw₂, hh₂⟩ := hw.pushBack hin
        refine ⟨_, ?_, hw₂, ?_, rfl⟩
        · simp [Push, hk, hfull, LRU.push_fst, hin]
        · rw [hh₂]
          simp [LRU.push, hin, show ¬ cache.size.toNat ≤ cache.hashes.length by omega]

/-! ### Runs -/

/-- The calls on a cache. -/
inductive CacheCall where
  | Push (tx : Bytes)
  | Remove (tx : Bytes)
  | Reset

variable (txKey) in
/-- The cache after a call. -/
def call (cache : mapTxCache κ) : CacheCall → Result (mapTxCache κ)
  | .Push tx => do
      let (_, cache) ← cache.Push txKey tx
      pure cache
  | .Remove tx => .ok (cache.Remove txKey tx)
  | .Reset => .ok cache.Reset

variable (txKey) in
/-- The caches that calls reach from `newMapTxCache(cacheSize)`. -/
def Reachable (cacheSize : Int) (cache : mapTxCache κ) : Prop :=
  Transition.Reachable (· = newMapTxCache cacheSize)
    (fun cache cache' => ∃ c, cache.call txKey c = .ok cache') cache

/-- A well-formed cache of size `cacheSize` holding at most that many hashes. -/
structure Inv (cacheSize : Int) (cache : mapTxCache κ) : Prop where
  wf : cache.WF
  size : cache.size = cacheSize
  length : cache.hashes.length ≤ cacheSize.toNat

theorem call_inv {cacheSize : Int} (hsize : 1 ≤ cacheSize) {cache' : mapTxCache κ}
    {c : CacheCall} (hi : cache.Inv cacheSize) (h : cache.call txKey c = .ok cache') :
    cache'.Inv cacheSize := by
  cases c with
  | Push tx =>
      obtain ⟨cache₁, hp, hw, hh, hs⟩ := Push_spec txKey hi.wf (hi.size ▸ hsize) tx
      simp only [call, hp, Result.ok_bind, Result.pure_eq, Result.ok.injEq] at h
      subst h
      have hcap : 1 ≤ cache.size.toNat := by rw [hi.size]; omega
      have hlen := LRU.push_length_le (a := txKey tx) hcap (by rw [hi.size]; exact hi.length)
      exact ⟨hw, hs.trans hi.size, by rw [hh, ← hi.size]; exact hlen⟩
  | Remove tx =>
      obtain ⟨hw, hh, hs⟩ := Remove_spec txKey hi.wf tx
      cases h
      exact ⟨hw, hs.trans hi.size, hh ▸ LRU.remove_length_le.trans hi.length⟩
  | Reset =>
      cases h
      exact ⟨Reset_wf.1, hi.size, by simp [Reset_wf.2]⟩

/-- Along every run from `newMapTxCache(cacheSize)` with `cacheSize ≥ 1`, the map and the list
hold the same hashes, each once and at most `cacheSize` of them, and each call acts on the list as
on the LRU set: `Push` returns whether the hash was new, refreshes a hash held, and when full drops
the least recently pushed or refreshed hash; `Remove` drops the hash and keeps the order of the
others; `Reset` empties the list. -/
theorem reachable_lru {cacheSize : Int} (hsize : 1 ≤ cacheSize)
    (h : cache.Reachable txKey cacheSize) :
    cache.hashes.Nodup ∧ cache.hashes.length ≤ cacheSize.toNat ∧
      (∀ k, k ∈ cache.hashes ↔ ∃ e, cache.map_ k = some e) ∧
      (∀ tx, ∃ pushed cache', cache.Push txKey tx = .ok (pushed, cache') ∧
        (pushed = true ↔ txKey tx ∉ cache.hashes) ∧
        cache'.hashes = (LRU.push cacheSize.toNat cache.hashes (txKey tx)).2) ∧
      (∀ tx, (cache.Remove txKey tx).hashes = LRU.remove cache.hashes (txKey tx)) ∧
      cache.Reset.hashes = [] := by
  have hi : cache.Inv cacheSize :=
    Transition.Reachable.invariant (by rintro _ rfl; exact ⟨newMapTxCache_wf _, rfl, by simp [hashes,
      newMapTxCache, GoList.New]⟩) (fun _ _ _ hi ⟨_, hc⟩ => call_inv hsize hi hc) h
  refine ⟨hi.wf.nodup, hi.length, fun k => hi.wf.mem_hashes, fun tx => ?_,
    fun tx => (Remove_spec txKey hi.wf tx).2.1, Reset_wf.2⟩
  obtain ⟨cache', hp, -, hh, -⟩ := Push_spec txKey hi.wf (hi.size ▸ hsize) tx
  rw [LRU.push_fst] at hp
  exact ⟨_, cache', hp, decide_eq_true_iff, hi.size ▸ hh⟩

theorem reachable_lru_refreshed :
    ∃ cache : mapTxCache Bytes, cache.Reachable id 2 ∧ cache.hashes = [[1], [3]] ∧
      cache.hashes.Nodup ∧ cache.hashes.length ≤ (2 : Int).toNat ∧
      (∀ k, k ∈ cache.hashes ↔ ∃ e, cache.map_ k = some e) ∧
      (∀ tx, ∃ pushed cache', cache.Push id tx = .ok (pushed, cache') ∧
        (pushed = true ↔ id tx ∉ cache.hashes) ∧
        cache'.hashes = (LRU.push (2 : Int).toNat cache.hashes (id tx)).2) ∧
      (∀ tx, (cache.Remove id tx).hashes = LRU.remove cache.hashes (id tx)) ∧
      cache.Reset.hashes = [] := by
  -- `[1]` is refreshed before `[3]` comes, so the full cache drops `[2]`
  have hr : Reachable id 2 _ := .step (.step (.step (.step (.init rfl) ⟨.Push [1], rfl⟩)
    ⟨.Push [2], rfl⟩) ⟨.Push [1], rfl⟩) ⟨.Push [3], rfl⟩
  exact ⟨_, hr, rfl, reachable_lru (by decide) hr⟩

end mapTxCache

end Dgrid.Blockchain
