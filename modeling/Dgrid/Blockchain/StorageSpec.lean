import Dgrid.Clist.CListSpec
import Dgrid.Blockchain.Storage

/-! What the mempool's bookkeeping keeps along every run. The list stays well linked, the byte
count is the wrapped sum of the lengths of the listed transactions, and every entry of the map
names a listed element holding a transaction of that hash. The map need not name every listed
transaction, and a transaction can be listed twice: the LRU cache that turns away a transaction
seen before forgets it once newer ones push it out. -/

namespace Dgrid.Blockchain
open Go Dgrid.Clist LinkedList

variable {κ : Type} [DecidableEq κ] (txKey : Bytes → κ)

namespace Storage

/-- The transactions in the list, in order. -/
def listedTxs (mem : Storage κ) : List Bytes := mem.txs.values.map storageTx.tx

/-- The bookkeeping of the list, the byte count and the map. -/
structure Inv (mem : Storage κ) : Prop where
  txs : mem.txs.Inv
  detached : mem.txs.Detached
  txsBytes : mem.txsBytes = wrap64 ((mem.listedTxs.map List.length).sum : Nat)
  txsMap : ∀ k e, mem.txsMap k = some e →
    e ∈ mem.txs.live ∧ ∃ v, mem.txs.valueOf e = some v ∧ txKey v.tx = k

/-- Two storages with the same list, map and byte count. -/
structure SameBook (mem mem' : Storage κ) : Prop where
  txs : mem'.txs = mem.txs
  txsMap : mem'.txsMap = mem.txsMap
  txsBytes : mem'.txsBytes = mem.txsBytes

variable {txKey}
variable {mem mem' : Storage κ}

omit [DecidableEq κ] in
theorem Inv.of_sameBook (hi : mem.Inv txKey) (h : SameBook mem mem') : mem'.Inv txKey := by
  obtain ⟨htxs, hmap, hbytes⟩ := h
  refine ⟨htxs ▸ hi.txs, htxs ▸ hi.detached, ?_, by rw [hmap, htxs]; exact hi.txsMap⟩
  rw [hbytes, hi.txsBytes]
  simp only [listedTxs, htxs]

omit [DecidableEq κ] in
theorem SameBook.trans {mem'' : Storage κ} (h : SameBook mem mem') (h' : SameBook mem' mem'') :
    SameBook mem mem'' :=
  ⟨h'.txs.trans h.txs, h'.txsMap.trans h.txsMap, h'.txsBytes.trans h.txsBytes⟩

omit [DecidableEq κ] in
theorem notifyTxsAvailable_sameBook (h : mem.notifyTxsAvailable = .ok mem') : SameBook mem mem' := by
  unfold notifyTxsAvailable at h
  split_ifs at h <;> cases h <;> exact ⟨rfl, rfl, rfl⟩

theorem CheckTxWithInfo_frame {tx : Bytes} {connErr : Option String}
    {r : Except CheckTxError Unit} (h : mem.CheckTxWithInfo txKey tx connErr = .ok (r, mem')) :
    ∃ cache proxyAppConn, mem' = { mem with cache, proxyAppConn } := by
  simp only [CheckTxWithInfo] at h
  split_ifs at h
  · cases h; exact ⟨_, _, rfl⟩
  · cases h; exact ⟨_, _, rfl⟩
  · split at h
    · cases h; exact ⟨_, _, rfl⟩
    · obtain ⟨⟨pushed, cache⟩, -, h⟩ := Result.bind_eq_ok.mp h
      split_ifs at h
      · cases h; exact ⟨_, _, rfl⟩
      · split at h <;> cases h <;> exact ⟨_, _, rfl⟩

theorem CheckTxWithInfo_sameBook {tx : Bytes} {connErr : Option String}
    {r : Except CheckTxError Unit} (h : mem.CheckTxWithInfo txKey tx connErr = .ok (r, mem')) :
    SameBook mem mem' := by
  obtain ⟨cache, proxyAppConn, rfl⟩ := CheckTxWithInfo_frame h
  exact ⟨rfl, rfl, rfl⟩

/-! ### Adding and removing a transaction -/

theorem addTx_inv {memTx : storageTx} (hi : mem.Inv txKey) (h : mem.addTx txKey memTx = .ok mem') :
    mem'.Inv txKey := by
  obtain ⟨⟨e, txs⟩, hp, h⟩ := Result.bind_eq_ok.mp h
  cases h
  have hlive := CList.PushBack_live hi.txs hp
  obtain ⟨-, rfl, -, -, -, -, -, -, -, -, hval⟩ := CList.PushBack_spec hi.txs hp
  refine ⟨CList.PushBack_inv hi.txs hp, CList.PushBack_detached hi.txs hi.detached hp, ?_, ?_⟩
  · simp only [listedTxs, CList.PushBack_values hi.txs hp, hi.txsBytes]
    rw [wrap64_add_wrap64]
    simp
  · intro k x hk
    simp only [Function.update_apply] at hk
    split_ifs at hk with hke
    · cases hk
      exact ⟨by simp [hlive], memTx, by simp [hval], hke.symm⟩
    · obtain ⟨hx, v, hv, hkv⟩ := hi.txsMap k x hk
      exact ⟨by simp [hlive, hx], v, by rw [hval, if_neg (CList.lt_of_mem_live hx).ne]; exact hv,
        hkv⟩

theorem removeTx_spec {tx : Bytes} {e : Nat} {b : Bool}
    (h : mem.removeTx txKey tx e b = .ok mem') :
    (∃ v l₁, mem.txs.Remove e = .ok (v, l₁) ∧ l₁.DetachPrev e = .ok mem'.txs) ∧
      mem'.txsMap = Function.update mem.txsMap (txKey tx) none ∧
      mem'.txsBytes = wrap64 (mem.txsBytes - tx.length) := by
  obtain ⟨⟨v, l₁⟩, h₁, h⟩ := Result.bind_eq_ok.mp h
  obtain ⟨l₂, h₂, h⟩ := Result.bind_eq_ok.mp h
  cases b <;> cases h <;> exact ⟨⟨v, l₁, h₁, h₂⟩, rfl, rfl⟩

theorem removeTx_ok {tx : Bytes} {e : Nat} (b : Bool) (hl : mem.txs.Inv) (he : e ∈ mem.txs.live) :
    ∃ mem', mem.removeTx txKey tx e b = .ok mem' := by
  obtain ⟨v, l₁, l', h₁, h₂, -, -⟩ := CList.remove_detachPrev hl he
  exact ⟨_, by simp only [removeTx, h₁, h₂, Result.ok_bind, Result.pure_eq]; rfl⟩

theorem removeTx_rest {tx : Bytes} {e : Nat} {b : Bool} (h : mem.removeTx txKey tx e b = .ok mem') :
    { mem' with txs := mem.txs, txsMap := mem.txsMap, txsBytes := mem.txsBytes } =
      { mem with cache := if b then mem.cache.Remove txKey tx else mem.cache } := by
  obtain ⟨⟨v, l₁⟩, h₁, h⟩ := Result.bind_eq_ok.mp h
  obtain ⟨l₂, h₂, h⟩ := Result.bind_eq_ok.mp h
  cases b <;> cases h <;> rfl

theorem removeTx_inv {tx : Bytes} {e : Nat} {b : Bool} {v : storageTx} (hi : mem.Inv txKey)
    (hv : mem.txs.valueOf e = some v) (htx : v.tx = tx) (h : mem.removeTx txKey tx e b = .ok mem') :
    mem'.Inv txKey := by
  obtain ⟨⟨v', l₁, h₁, h₂⟩, hmap, hbytes⟩ := removeTx_spec h
  -- a removed element is detached, and `Remove` of it panics
  have he : e ∈ mem.txs.live := by
    rw [CList.mem_live]
    by_contra hne
    exact CList.Remove_ne_ok_of_removed hi.txs hi.detached (by simpa using hne) v' l₁ h₁
  obtain ⟨-, hdrop⟩ := CList.Dropped.of_eq hi.txs he h₁ h₂
  have hperm := CList.values_perm_of_erase he hv hdrop.live hdrop.valueOf
  refine ⟨hdrop.inv, hdrop.detached hi.detached, ?_, ?_⟩
  · have hsum := (hperm.map storageTx.tx).map List.length |>.sum_eq
    simp only [List.map_cons, List.sum_cons] at hsum
    rw [hbytes, hi.txsBytes, wrap64_sub_wrap64, listedTxs, listedTxs, hsum, ← htx]
    congr 1
    push_cast
    ring
  · intro k x hk
    simp only [hmap, Function.update_apply] at hk
    split_ifs at hk with hke
    obtain ⟨hx, w, hw, hkw⟩ := hi.txsMap k x hk
    have hxe : x ≠ e := by
      rintro rfl
      obtain rfl := Option.some.inj (hv.symm.trans hw)
      exact hke (hkw ▸ htx ▸ rfl)
    exact ⟨by rw [hdrop.live]; exact (CList.live_nodup _).mem_erase_iff.mpr ⟨hxe, hx⟩, w,
      by rw [hdrop.valueOf]; exact hw, hkw⟩

/-! ### Responses -/

theorem resCbFirstTime_inv {tx : Bytes} {res : Response} (hi : mem.Inv txKey)
    (h : mem.resCbFirstTime txKey tx res = .ok mem') : mem'.Inv txKey := by
  unfold resCbFirstTime at h
  split at h
  · split_ifs at h
    · obtain ⟨mem₁, h₁, h⟩ := Result.bind_eq_ok.mp h
      exact (addTx_inv hi h₁).of_sameBook (notifyTxsAvailable_sameBook h)
    · cases h
      exact hi.of_sameBook ⟨rfl, rfl, rfl⟩
  · cases h
    exact hi

theorem resCbRecheck_inv {tx : Bytes} {res : Response} (hi : mem.Inv txKey)
    (h : mem.resCbRecheck txKey tx res = .ok mem') : mem'.Inv txKey := by
  unfold resCbRecheck at h
  split at h
  · split at h
    · cases h
    · rename_i cursor _
      obtain ⟨memTx, hv, h⟩ := Result.bind_eq_ok.mp h
      by_cases htx : tx = memTx.tx
      · rw [if_neg (not_not.mpr htx)] at h
        obtain ⟨mem₁, h₁, h⟩ := Result.bind_eq_ok.mp h
        -- the recheck verdict: the element stays, or `removeTx` drops it
        have hi₁ : mem₁.Inv txKey := by
          split_ifs at h₁
          · cases h₁
            exact hi
          · exact removeTx_inv hi (CList.valueOf_of_Value hv) htx.symm h₁
        obtain ⟨next, -, h⟩ := Result.bind_eq_ok.mp h
        dsimp only at h
        split_ifs at h
        · refine Inv.of_sameBook ?_ (notifyTxsAvailable_sameBook h)
          exact hi₁.of_sameBook ⟨rfl, rfl, rfl⟩
        all_goals cases h; exact hi₁.of_sameBook ⟨rfl, rfl, rfl⟩
      · rw [if_pos htx] at h
        cases h
  · cases h
    exact hi

theorem globalCb_inv {req : Request} {res : Response} (hi : mem.Inv txKey)
    (h : mem.globalCb txKey req res = .ok mem') : mem'.Inv txKey := by
  unfold globalCb at h
  split_ifs at h
  · cases h
    exact hi
  · exact resCbRecheck_inv hi h

theorem didRecvResponse_inv {res : Response} (hi : mem.Inv txKey)
    (h : mem.didRecvResponse txKey res = .ok mem') : mem'.Inv txKey := by
  unfold didRecvResponse at h
  split at h
  · cases h
  · rename_i req rest _
    have hi' : ({ mem with proxyAppConn := rest } : Storage κ).Inv txKey :=
      hi.of_sameBook ⟨rfl, rfl, rfl⟩
    split at h
    · obtain ⟨mem₁, h₁, h⟩ := Result.bind_eq_ok.mp h
      unfold reqResCb at h₁
      split_ifs at h₁
      exact globalCb_inv (resCbFirstTime_inv hi' h₁) h
    · exact globalCb_inv hi' h

/-! ### Flush and Update -/

omit [DecidableEq κ] in
theorem Flush_inv (hi : mem.Inv txKey) (h : mem.Flush = .ok mem') : mem'.Inv txKey := by
  obtain ⟨txs, htxs, h⟩ := Result.bind_eq_ok.mp h
  cases h
  -- the body of the loop drops the element it is run on
  have hb : ∀ e (l l' : CList storageTx),
      (l.Remove e >>= fun r => r.2.DetachPrev e) = Result.ok l' →
        ∃ v l₁, l.Remove e = .ok (v, l₁) ∧ l₁.DetachPrev e = .ok l' := by
    intro e l l' h
    obtain ⟨⟨v, l₁⟩, h₁, h₂⟩ := Result.bind_eq_ok.mp h
    exact ⟨v, l₁, h₁, h₂⟩
  have hloop := @CList.forEach_front _ _ id _
    (CList.keepsRest_of fun e l l' _ _ h => .inr (hb e l l' h)) _ hi.txs
  dsimp only [id_eq] at hloop
  rw [hloop] at htxs
  obtain ⟨hl, hd, hlive⟩ := CList.foldlM_drop_live hb _ _ _ hi.txs hi.detached rfl htxs
  refine ⟨hl, hd, ?_, fun k e hk => by cases hk⟩
  simp [listedTxs, CList.values, hlive]

end Storage

variable {txKey} {mem mem' : Storage κ}

theorem removeTxsBody_cases {txs left left' : List Bytes} {e : Nat}
    (h : removeTxsBody txKey txs e (left, mem) = .ok (left', mem')) :
    ∃ memTx, mem.txs.valueOf e = some memTx ∧
      (memTx.tx ∈ txs ∧ mem.removeTx txKey memTx.tx e false = .ok mem' ∧ left' = left ∨
        memTx.tx ∉ txs ∧ mem' = mem ∧ left' = left ++ [memTx.tx]) := by
  obtain ⟨memTx, hv, h⟩ := Result.bind_eq_ok.mp h
  refine ⟨memTx, CList.valueOf_of_Value hv, ?_⟩
  split_ifs at h with htx
  · obtain ⟨mem₁, h₁, h⟩ := Result.bind_eq_ok.mp h
    cases h
    exact .inl ⟨htx, h₁, rfl⟩
  · cases h
    exact .inr ⟨htx, rfl, rfl⟩

namespace Storage

theorem removeTxs_eq_foldlM {txs : List Bytes} (hi : mem.Inv txKey) :
    mem.removeTxs txKey txs =
      mem.txs.live.foldlM (fun s e => removeTxsBody txKey txs e s) ([], mem) := by
  -- the loop body drops its element or leaves the list alone, so it walks every live element
  have hdrop : ∀ e (s s' : List Bytes × Storage κ), removeTxsBody txKey txs e s = .ok s' →
      s'.2.txs = s.2.txs ∨
        ∃ v l₁, s.2.txs.Remove e = .ok (v, l₁) ∧ l₁.DetachPrev e = .ok s'.2.txs := by
    rintro e ⟨left, mem⟩ ⟨left', mem'⟩ hs
    obtain ⟨memTx, -, ⟨-, hr, -⟩ | ⟨-, rfl, -⟩⟩ := removeTxsBody_cases hs
    · exact .inr (removeTx_spec hr).1
    · exact .inl rfl
  exact @CList.forEach_front _ _ (fun s : List Bytes × Storage κ => s.2.txs)
    (removeTxsBody txKey txs) (CList.keepsRest_of fun e s s' _ _ hs => hdrop e s s' hs) ([], mem)
    hi.txs

theorem removeTxs_inv {txs left : List Bytes} (hi : mem.Inv txKey)
    (h : mem.removeTxs txKey txs = .ok (left, mem')) : mem'.Inv txKey := by
  rw [removeTxs_eq_foldlM hi] at h
  refine Result.foldlM_invariant (P := fun s => s.2.Inv txKey) ?_ _ _ _ hi h
  rintro ⟨left, mem⟩ e ⟨left', mem'⟩ hi hs
  obtain ⟨memTx, hv, ⟨-, hr, -⟩ | ⟨-, rfl, -⟩⟩ := removeTxsBody_cases hs
  · exact removeTx_inv hi hv rfl hr
  · exact hi

omit [DecidableEq κ] in
theorem recheckTxs_sameBook (txs : List Bytes) : SameBook mem (mem.recheckTxs txs) := by
  unfold recheckTxs
  split_ifs <;> exact ⟨rfl, rfl, rfl⟩

theorem Update_inv {height : Int} {txs : List Bytes} {preCheck : Option (Bytes → Option String)}
    {postCheck : Option (Bytes → ResponseCheckTx → Option String)} (hi : mem.Inv txKey)
    (h : mem.Update txKey height txs preCheck postCheck = .ok mem') : mem'.Inv txKey := by
  obtain ⟨mem₁, h₁, h⟩ := Result.bind_eq_ok.mp h
  -- pushing the committed transactions to the cache changes only the cache
  have hi₁ : mem₁.Inv txKey := by
    refine Result.foldlM_invariant (P := fun m => m.Inv txKey) ?_ _ _ _ ?_ h₁
    · intro m tx m' hm hs
      obtain ⟨⟨_, cache⟩, -, hs⟩ := Result.bind_eq_ok.mp hs
      cases hs
      exact hm.of_sameBook ⟨rfl, rfl, rfl⟩
    · exact hi.of_sameBook ⟨rfl, rfl, rfl⟩
  obtain ⟨⟨left, mem₂⟩, h₂, h⟩ := Result.bind_eq_ok.mp h
  have hi₂ := removeTxs_inv hi₁ h₂
  dsimp only at h
  split_ifs at h
  · cases h
    exact hi₂.of_sameBook (recheckTxs_sameBook _)
  · exact hi₂.of_sameBook (notifyTxsAvailable_sameBook h)
  · cases h
    exact hi₂

omit [DecidableEq κ] in
theorem apply_sameBook (o : StorageOption) : SameBook mem (StorageOption.apply mem o) := by
  cases o <;> exact ⟨rfl, rfl, rfl⟩

omit [DecidableEq κ] in
theorem NewStorage_inv (config : StorageConfig) (height : Int) (options : List StorageOption) :
    (NewStorage config height options : Storage κ).Inv txKey := by
  -- the options set the checks only
  suffices ∀ (os : List StorageOption) (mem : Storage κ), mem.Inv txKey →
      (os.foldl StorageOption.apply mem).Inv txKey from
    this options _ ⟨CList.New_inv, CList.New_detached, by simp [listedTxs, CList.values],
      fun _ _ h => nomatch h⟩
  intro os
  induction os with
  | nil => exact fun _ hi => hi
  | cons o os ih => exact fun mem hi => ih _ (hi.of_sameBook (apply_sameBook o))

end Storage

/-! ### Runs -/

/-- The calls that change the mempool: `CheckTxWithInfo` (`CheckTx` is the call with an empty
`TxInfo`), the application's response to the oldest waiting request, `Update`, `Flush`,
`EnableTxsAvailable`, and a receive from the channel `TxsAvailable()` returns. The reaps and the
getters only read the mempool. -/
inductive Call where
  | checkTx (tx : Bytes) (connErr : Option String)
  | response (res : Response)
  | update (height : Int) (txs : List Bytes) (preCheck : Option (Bytes → Option String))
      (postCheck : Option (Bytes → ResponseCheckTx → Option String))
  | flush
  | enableTxsAvailable
  | recvTxsAvailable

namespace Storage

/-- A receive from `TxsAvailable()`, which waits until the channel holds a value and takes it. -/
def recvTxsAvailable (mem : Storage κ) : Storage κ :=
  if mem.txsAvailable = some true then { mem with txsAvailable := some false } else mem

end Storage

namespace Storage

variable (txKey) in
/-- The mempool after a call. -/
def call (mem : Storage κ) : Call → Result (Storage κ)
  | .checkTx tx connErr => do
      let (_, mem) ← mem.CheckTxWithInfo txKey tx connErr
      pure mem
  | .response res => mem.didRecvResponse txKey res
  | .update height txs preCheck postCheck => mem.Update txKey height txs preCheck postCheck
  | .flush => mem.Flush
  | .enableTxsAvailable => .ok mem.EnableTxsAvailable
  | .recvTxsAvailable => .ok mem.recvTxsAvailable

/-- A mempool as `NewStorage` makes it. -/
def Initial (mem : Storage κ) : Prop :=
  ∃ config height options, mem = NewStorage config height options

variable (txKey) in
/-- The mempools that a run of calls from `NewStorage` reaches. -/
def Reachable (mem : Storage κ) : Prop :=
  Transition.Reachable Initial (fun mem mem' => ∃ c, mem.call txKey c = .ok mem') mem

theorem call_inv {c : Call} (hi : mem.Inv txKey) (h : mem.call txKey c = .ok mem') :
    mem'.Inv txKey := by
  cases c with
  | checkTx tx connErr =>
      obtain ⟨⟨r, mem₁⟩, h₁, h⟩ := Result.bind_eq_ok.mp h
      cases h
      exact hi.of_sameBook (CheckTxWithInfo_sameBook h₁)
  | response res => exact didRecvResponse_inv hi h
  | update height txs preCheck postCheck => exact Update_inv hi h
  | flush => exact Flush_inv hi h
  | enableTxsAvailable =>
      cases h
      exact hi.of_sameBook ⟨rfl, rfl, rfl⟩
  | recvTxsAvailable =>
      cases h
      unfold recvTxsAvailable
      split_ifs
      · exact hi.of_sameBook ⟨rfl, rfl, rfl⟩
      · exact hi

/-- Along every run the list stays well linked, the byte count is the wrapped sum of the
lengths of the listed transactions, and every entry of the map names a listed element holding a
transaction of that hash. -/
theorem reachable_inv (h : mem.Reachable txKey) : mem.Inv txKey :=
  Transition.Reachable.invariant (by rintro _ ⟨config, height, options, rfl⟩; exact NewStorage_inv ..)
    (fun _ _ _ hi ⟨_, hc⟩ => call_inv hi hc) h

theorem Reachable.foldlM {calls : List Call} (h : mem.Reachable txKey)
    (hrun : calls.foldlM (call txKey) mem = .ok mem') : mem'.Reachable txKey := by
  induction calls generalizing mem with
  | nil =>
      cases hrun
      exact h
  | cons c calls ih =>
      simp only [List.foldlM_cons] at hrun
      obtain ⟨mem₁, h₁, hrun⟩ := Result.bind_eq_ok.mp hrun
      exact ih (Transition.Reachable.step h ⟨c, h₁⟩) hrun

/-- First checks of `[0]`, `[1]` and `[0]` again, then the application's three `OK` responses. -/
def evictedRun : List Call :=
  [.checkTx [0] none, .checkTx [1] none, .checkTx [0] none,
   .response (.checkTx ⟨CodeTypeOK, 0⟩), .response (.checkTx ⟨CodeTypeOK, 0⟩),
   .response (.checkTx ⟨CodeTypeOK, 0⟩)]

/-- A transaction can be listed twice: with room for one hash in the cache, the check of `[1]`
evicts the hash of `[0]`, which is still waiting for its response, so the second check of `[0]`
passes the cache, and both responses add it. -/
theorem reachable_lists_tx_twice (hkey : txKey [0] ≠ txKey [1]) :
    ∃ mem : Storage κ, mem.Reachable txKey ∧ mem.config.CacheSize > 0 ∧
      mem.listedTxs = [[0], [1], [0]] := by
  obtain ⟨mem, hrun, hcache, hlisted⟩ : ∃ mem : Storage κ,
      evictedRun.foldlM (call txKey) (NewStorage ⟨10, 100, 1, true⟩ 0 []) = .ok mem ∧
        mem.config.CacheSize > 0 ∧ mem.listedTxs = [[0], [1], [0]] := by
    simp [evictedRun, call, NewStorage, CheckTxWithInfo, Size, TxsBytes, CList.Len, CList.New,
      txCache.Push, mapTxCache.Push, mapTxCache.newMapTxCache, GoList.New, GoList.Len,
      GoList.PushBack, GoList.Front, GoList.Remove, hkey, hkey.symm, didRecvResponse, reqResCb,
      resCbFirstTime, globalCb, addTx, CList.PushBack, notifyTxsAvailable, postCheckErr, wrap64,
      maxTxSize, CodeTypeOK, MaxLength, maxInt64, CList.SetPrev, CList.SetNext, CList.modify,
      listedTxs, CList.values, CList.live, CList.isLive, CList.valueOf, List.range_succ]
  exact ⟨mem, Reachable.foldlM (.init ⟨_, _, _, rfl⟩) hrun, hcache, hlisted⟩

theorem reachable_lists_tx_twice_id :
    ∃ mem : Storage Bytes, mem.Reachable id ∧ mem.config.CacheSize > 0 ∧
      mem.listedTxs = [[0], [1], [0]] :=
  reachable_lists_tx_twice (by decide)

end Storage

end Dgrid.Blockchain
