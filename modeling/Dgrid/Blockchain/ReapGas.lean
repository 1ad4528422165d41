import Dgrid.Blockchain.Reap

/-! Runs of the mempool under one post-check, and what `ReapMaxBytesMaxGas` returns on them. A
run from `NewStorage` with a post-check `f`, whose `Update` calls install no other one, lists only
transactions that passed the size check of `CheckTx` and whose response passed `f`. Under
`PostCheckMaxGas g` every listed transaction therefore wants between `0` and `g` gas, and the
running totals of `ReapMaxBytesMaxGas` stay in `int64` while the limits leave room: it returns
the longest prefix of the listed transactions within the limits, added exactly. -/

namespace Dgrid.Blockchain
open Go Dgrid.Clist

variable {κ : Type} [DecidableEq κ] {txKey : Bytes → κ}

/-- The calls that leave the post-check `f` in place: an `Update` passes none, or `f`. -/
def Call.KeepsPostCheck (f : Bytes → ResponseCheckTx → Option String) : Call → Prop
  | .update _ _ _ postCheck => postCheck = none ∨ postCheck = some f
  | _ => True

namespace Storage

/-! ### What each call does to the post-check, the queue and the list -/

/-- `mem'` has the post-check and the queue of requests of `mem`, and lists only transactions
that `mem` lists. -/
structure Shrinks (mem mem' : Storage κ) : Prop where
  postCheck : mem'.postCheck = mem.postCheck
  proxyAppConn : mem'.proxyAppConn = mem.proxyAppConn
  values : ∀ v ∈ mem'.txs.values, v ∈ mem.txs.values

variable {mem mem' mem'' : Storage κ}

omit [DecidableEq κ] in
theorem Shrinks.refl (mem : Storage κ) : Shrinks mem mem := ⟨rfl, rfl, fun _ hv => hv⟩

omit [DecidableEq κ] in
theorem Shrinks.trans (h : Shrinks mem mem') (h' : Shrinks mem' mem'') : Shrinks mem mem'' :=
  ⟨h'.postCheck.trans h.postCheck, h'.proxyAppConn.trans h.proxyAppConn,
    fun v hv => h.values v (h'.values v hv)⟩

omit [DecidableEq κ] in
theorem Shrinks.of_txs (hp : mem'.postCheck = mem.postCheck)
    (hq : mem'.proxyAppConn = mem.proxyAppConn) (ht : mem'.txs = mem.txs) : Shrinks mem mem' :=
  ⟨hp, hq, fun _ hv => ht ▸ hv⟩

omit [DecidableEq κ] in
theorem notifyTxsAvailable_shrinks (h : mem.notifyTxsAvailable = .ok mem') : Shrinks mem mem' := by
  unfold notifyTxsAvailable at h
  split_ifs at h <;> cases h <;> exact .of_txs rfl rfl rfl

theorem removeTx_shrinks {tx : Bytes} {e : Nat} {b : Bool} (hi : mem.Inv txKey)
    (h : mem.removeTx txKey tx e b = .ok mem') : Shrinks mem mem' := by
  obtain ⟨⟨v, l₁, h₁, h₂⟩, -, -⟩ := removeTx_spec h
  -- a removed element is detached, and `Remove` of it panics
  have he : e ∈ mem.txs.live := by
    rw [CList.mem_live]
    by_contra hne
    exact CList.Remove_ne_ok_of_removed hi.txs hi.detached (by simpa using hne) v l₁ h₁
  obtain ⟨-, hdrop⟩ := CList.Dropped.of_eq hi.txs he h₁ h₂
  have hrest := removeTx_rest h
  refine ⟨?_, ?_, fun w hw => hdrop.values_subset hw⟩
  · simpa using congrArg Storage.postCheck hrest
  · simpa using congrArg Storage.proxyAppConn hrest

theorem resCbRecheck_shrinks {tx : Bytes} {res : Response} (hi : mem.Inv txKey)
    (h : mem.resCbRecheck txKey tx res = .ok mem') : Shrinks mem mem' := by
  unfold resCbRecheck at h
  split at h
  · split at h
    · cases h
    · obtain ⟨memTx, -, h⟩ := Result.bind_eq_ok.mp h
      by_cases htx : tx = memTx.tx
      · rw [if_neg (not_not.mpr htx)] at h
        obtain ⟨mem₁, h₁, h⟩ := Result.bind_eq_ok.mp h
        -- the recheck verdict: the element stays, or `removeTx` drops it
        have hs₁ : Shrinks mem mem₁ := by
          split_ifs at h₁
          · cases h₁
            exact .refl _
          · exact removeTx_shrinks hi h₁
        obtain ⟨next, -, h⟩ := Result.bind_eq_ok.mp h
        dsimp only at h
        split_ifs at h
        · refine hs₁.trans (Shrinks.trans ?_ (notifyTxsAvailable_shrinks h))
          exact .of_txs rfl rfl rfl
        all_goals cases h; exact hs₁.trans (.of_txs rfl rfl rfl)
      · rw [if_pos htx] at h
        cases h
  · cases h
    exact .refl _

theorem globalCb_shrinks {req : Request} {res : Response} (hi : mem.Inv txKey)
    (h : mem.globalCb txKey req res = .ok mem') : Shrinks mem mem' := by
  unfold globalCb at h
  split_ifs at h
  · cases h
    exact .refl _
  · exact resCbRecheck_shrinks hi h

theorem resCbFirstTime_listed {tx : Bytes} {res : Response} (hi : mem.Inv txKey)
    (h : mem.resCbFirstTime txKey tx res = .ok mem') :
    mem'.postCheck = mem.postCheck ∧ mem'.proxyAppConn = mem.proxyAppConn ∧
      ∀ v ∈ mem'.txs.values, v ∈ mem.txs.values ∨
        ∃ r, res = .checkTx r ∧ r.Code = CodeTypeOK ∧ mem.postCheckErr tx r = none ∧
          v = ⟨mem.height, r.GasWanted, tx⟩ := by
  unfold resCbFirstTime at h
  split at h
  · rename_i r
    split_ifs at h with hok
    · obtain ⟨mem₁, h₁, h⟩ := Result.bind_eq_ok.mp h
      obtain ⟨⟨e, txs⟩, hp, h₁⟩ := Result.bind_eq_ok.mp h₁
      cases h₁
      have hs := notifyTxsAvailable_shrinks h
      refine ⟨hs.postCheck, hs.proxyAppConn, fun v hv => ?_⟩
      have hv₁ := hs.values v hv
      rw [CList.PushBack_values hi.txs hp, List.mem_append, List.mem_singleton] at hv₁
      rcases hv₁ with hv₁ | rfl
      · exact .inl hv₁
      · exact .inr ⟨r, rfl, hok.1, hok.2, rfl⟩
    · cases h
      exact ⟨rfl, rfl, fun v hv => .inl hv⟩
  · cases h
    exact ⟨rfl, rfl, fun v hv => .inl hv⟩

/-- A response takes the oldest request off the queue; it lists what was listed, and the
transaction of that request when it was a first check that the application and the post-check
accept. -/
theorem didRecvResponse_listed {res : Response} (hi : mem.Inv txKey)
    (h : mem.didRecvResponse txKey res = .ok mem') :
    ∃ req, mem.proxyAppConn = req :: mem'.proxyAppConn ∧ mem'.postCheck = mem.postCheck ∧
      ∀ v ∈ mem'.txs.values, v ∈ mem.txs.values ∨
        ∃ tx r, req = .checkTx tx ∧ res = .checkTx r ∧ r.Code = CodeTypeOK ∧
          mem.postCheckErr tx r = none ∧ v = ⟨mem.height, r.GasWanted, tx⟩ := by
  unfold didRecvResponse at h
  split at h
  · cases h
  · rename_i req rest hq
    have hi' : ({ mem with proxyAppConn := rest } : Storage κ).Inv txKey :=
      hi.of_sameBook ⟨rfl, rfl, rfl⟩
    split at h
    · rename_i tx
      obtain ⟨mem₁, h₁, h⟩ := Result.bind_eq_ok.mp h
      unfold reqResCb at h₁
      split_ifs at h₁
      obtain ⟨hp₁, hq₁, hv₁⟩ := resCbFirstTime_listed hi' h₁
      have hs := globalCb_shrinks (resCbFirstTime_inv hi' h₁) h
      refine ⟨.checkTx tx, by rw [hq, hs.proxyAppConn, hq₁], hs.postCheck.trans hp₁, fun v hv => ?_⟩
      rcases hv₁ v (hs.values v hv) with hv' | ⟨r, hr, hok, hpost, rfl⟩
      · exact .inl hv'
      · exact .inr ⟨tx, r, rfl, hr, hok, hpost, rfl⟩
    · have hs := globalCb_shrinks hi' h
      exact ⟨_, by rw [hq, hs.proxyAppConn], hs.postCheck, fun v hv => .inl (hs.values v hv)⟩

theorem CheckTxWithInfo_queued {tx : Bytes} {connErr : Option String}
    {r : Except CheckTxError Unit} (h : mem.CheckTxWithInfo txKey tx connErr = .ok (r, mem')) :
    mem'.postCheck = mem.postCheck ∧ mem'.txs = mem.txs ∧
      (mem'.proxyAppConn = mem.proxyAppConn ∨
        (tx.length : Int) ≤ maxTxSize ∧ mem'.proxyAppConn = mem.proxyAppConn ++ [.checkTx tx]) := by
  simp only [CheckTxWithInfo] at h
  split_ifs at h with hfull hlarge
  · cases h
    exact ⟨rfl, rfl, .inl rfl⟩
  · cases h
    exact ⟨rfl, rfl, .inl rfl⟩
  · split at h
    · cases h
      exact ⟨rfl, rfl, .inl rfl⟩
    · obtain ⟨⟨pushed, cache⟩, -, h⟩ := Result.bind_eq_ok.mp h
      split_ifs at h
      · cases h
        exact ⟨rfl, rfl, .inl rfl⟩
      · split at h <;> cases h
        · exact ⟨rfl, rfl, .inl rfl⟩
        · exact ⟨rfl, rfl, .inr ⟨by omega, rfl⟩⟩

theorem removeTxs_shrinks {txs left : List Bytes} (hi : mem.Inv txKey)
    (h : mem.removeTxs txKey txs = .ok (left, mem')) : Shrinks mem mem' := by
  rw [removeTxs_eq_foldlM hi] at h
  refine (Result.foldlM_invariant (P := fun s => s.2.Inv txKey ∧ Shrinks mem s.2) ?_ _ _ _
    ⟨hi, .refl _⟩ h).2
  rintro ⟨left, mem₁⟩ e ⟨left', mem₂⟩ ⟨hi₁, hs₁⟩ hs
  obtain ⟨memTx, hv, ⟨-, hr, -⟩ | ⟨-, rfl, -⟩⟩ := removeTxsBody_cases hs
  · exact ⟨removeTx_inv hi₁ hv rfl hr, hs₁.trans (removeTx_shrinks hi₁ hr)⟩
  · exact ⟨hi₁, hs₁⟩

theorem Update_listed {height : Int} {txs : List Bytes} {preCheck : Option (Bytes → Option String)}
    {postCheck : Option (Bytes → ResponseCheckTx → Option String)} (hi : mem.Inv txKey)
    (h : mem.Update txKey height txs preCheck postCheck = .ok mem') :
    mem'.postCheck = postCheck.or mem.postCheck ∧
      (∀ tx, Request.checkTx tx ∈ mem'.proxyAppConn → Request.checkTx tx ∈ mem.proxyAppConn) ∧
      ∀ v ∈ mem'.txs.values, v ∈ mem.txs.values := by
  obtain ⟨mem₁, h₁, h⟩ := Result.bind_eq_ok.mp h
  -- pushing the committed transactions to the cache changes only the cache
  have h₁' : mem₁.postCheck = postCheck.or mem.postCheck ∧ mem₁.proxyAppConn = mem.proxyAppConn ∧
      SameBook mem mem₁ := by
    refine Result.foldlM_invariant (P := fun m => m.postCheck = postCheck.or mem.postCheck ∧
      m.proxyAppConn = mem.proxyAppConn ∧ SameBook mem m) ?_ _ _ _ ?_ h₁
    swap
    · exact ⟨rfl, rfl, rfl, rfl, rfl⟩
    intro m tx m' hm hs
    obtain ⟨⟨_, cache⟩, -, hs⟩ := Result.bind_eq_ok.mp hs
    cases hs
    obtain ⟨hp, hq, ht, hmap, hb⟩ := hm
    exact ⟨hp, hq, ht, hmap, hb⟩
  obtain ⟨hp₁, hq₁, hb₁⟩ := h₁'
  obtain ⟨⟨left, mem₂⟩, h₂, h⟩ := Result.bind_eq_ok.mp h
  have hs₂ := removeTxs_shrinks (hi.of_sameBook hb₁) h₂
  dsimp only at h
  -- then a recheck is queued, or the channel notified
  have hs : mem'.postCheck = mem₂.postCheck ∧
      (∀ tx, Request.checkTx tx ∈ mem'.proxyAppConn → Request.checkTx tx ∈ mem₂.proxyAppConn) ∧
      ∀ v ∈ mem'.txs.values, v ∈ mem₂.txs.values := by
    split_ifs at h
    · cases h
      unfold recheckTxs
      split_ifs
      · exact ⟨rfl, fun _ h => h, fun _ h => h⟩
      · exact ⟨rfl, fun tx h => by simpa using h, fun _ h => h⟩
    · have hs := notifyTxsAvailable_shrinks h
      exact ⟨hs.postCheck, fun tx h => hs.proxyAppConn ▸ h, hs.values⟩
    · cases h
      exact ⟨rfl, fun _ h => h, fun _ h => h⟩
  obtain ⟨hp, hq, hv⟩ := hs
  refine ⟨hp.trans (hs₂.postCheck.trans hp₁), fun tx htx => ?_, fun v hv' => ?_⟩
  · have := hq tx htx
    rwa [hs₂.proxyAppConn, hq₁] at this
  · have := hs₂.values v (hv v hv')
    rwa [hb₁.txs] at this

omit [DecidableEq κ] in
theorem Flush_shrinks (hi : mem.Inv txKey) (h : mem.Flush = .ok mem') : Shrinks mem mem' := by
  obtain ⟨txs, htxs, h⟩ := Result.bind_eq_ok.mp h
  cases h
  -- the loop drops every live element, so nothing is listed after it
  have hb : ∀ e (l l' : CList storageTx),
      (l.Remove e >>= fun r => r.2.DetachPrev e) = Result.ok l' →
        ∃ v l₁, l.Remove e = .ok (v, l₁) ∧ l₁.DetachPrev e = .ok l' := by
    intro e l l' h
    obtain ⟨⟨v, l₁⟩, h₁, h₂⟩ := Result.bind_eq_ok.mp h
    exact ⟨v, l₁, h₁, h₂⟩
  have hloop := @CList.forEach_front _ _ id _
    (CList.keepsRest_of fun e l l' _ _ h => .inr (hb e l l' h)) _ hi.txs
  dsimp only [id_eq] at hloop
  rw [hloop] at htxs
  obtain ⟨-, -, hlive⟩ := CList.foldlM_drop_live hb _ _ _ hi.txs hi.detached rfl htxs
  exact ⟨rfl, rfl, fun v hv => by simp [CList.values, hlive] at hv⟩

/-! ### Runs under one post-check -/

variable (txKey) in
/-- What a run under the post-check `f` keeps: the bookkeeping, the post-check, and that every
transaction waiting for its first check passed the size check of `CheckTx`, and every listed one
passed it too and was accepted, with its gas, by the application and by `f`. -/
structure PostChecked (f : Bytes → ResponseCheckTx → Option String) (mem : Storage κ) : Prop where
  inv : mem.Inv txKey
  postCheck : mem.postCheck = some f
  queued : ∀ tx, Request.checkTx tx ∈ mem.proxyAppConn → (tx.length : Int) ≤ maxTxSize
  listed : ∀ v ∈ mem.txs.values, (v.tx.length : Int) ≤ maxTxSize ∧
    ∃ r : ResponseCheckTx, r.Code = CodeTypeOK ∧ r.GasWanted = v.gasWanted ∧ f v.tx r = none

variable {f : Bytes → ResponseCheckTx → Option String}

omit [DecidableEq κ] in
theorem PostChecked.of_shrinks (h : mem.PostChecked txKey f) (hi : mem'.Inv txKey)
    (hs : Shrinks mem mem') : mem'.PostChecked txKey f :=
  ⟨hi, hs.postCheck.trans h.postCheck, fun tx htx => h.queued tx (hs.proxyAppConn ▸ htx),
    fun v hv => h.listed v (hs.values v hv)⟩

theorem PostChecked.call {c : Call} (h : mem.PostChecked txKey f) (hc : c.KeepsPostCheck f)
    (hcall : mem.call txKey c = .ok mem') : mem'.PostChecked txKey f := by
  have hi' := call_inv h.inv hcall
  cases c with
  | checkTx tx connErr =>
      obtain ⟨⟨r, mem₁⟩, h₁, hcall⟩ := Result.bind_eq_ok.mp hcall
      cases hcall
      obtain ⟨hp, ht, hq⟩ := CheckTxWithInfo_queued h₁
      refine ⟨hi', hp.trans h.postCheck, fun tx' htx' => ?_, fun v hv => h.listed v (ht ▸ hv)⟩
      rcases hq with hq | ⟨hlen, hq⟩
      · exact h.queued tx' (hq ▸ htx')
      · rw [hq, List.mem_append, List.mem_singleton, Request.checkTx.injEq] at htx'
        rcases htx' with htx' | rfl
        · exact h.queued tx' htx'
        · exact hlen
  | response res =>
      obtain ⟨req, hq, hp, hv⟩ := didRecvResponse_listed h.inv hcall
      refine ⟨hi', hp.trans h.postCheck,
        fun tx htx => h.queued tx (hq ▸ List.mem_cons_of_mem _ htx), fun v hv' => ?_⟩
      rcases hv v hv' with hv'' | ⟨tx, r, rfl, -, hok, hpost, rfl⟩
      · exact h.listed v hv''
      · refine ⟨h.queued tx (hq ▸ List.mem_cons_self), r, hok, rfl, ?_⟩
        simpa [postCheckErr, h.postCheck] using hpost
  | update height txs preCheck postCheck =>
      obtain ⟨hp, hq, hv⟩ := Update_listed h.inv hcall
      refine ⟨hi', ?_, fun tx htx => h.queued tx (hq tx htx), fun v hv' => h.listed v (hv v hv')⟩
      rcases hc with rfl | rfl
      · simpa [h.postCheck] using hp
      · simpa using hp
  | flush => exact h.of_shrinks hi' (Flush_shrinks h.inv hcall)
  | enableTxsAvailable =>
      cases hcall
      exact h.of_shrinks hi' (.of_txs rfl rfl rfl)
  | recvTxsAvailable =>
      cases hcall
      exact h.of_shrinks hi' (by unfold recvTxsAvailable; split_ifs <;> exact .of_txs rfl rfl rfl)

variable (txKey) in
/-- The mempools a run reaches from `NewStorage` with the post-check `f` by calls that keep
it. -/
def PostCheckedReachable (f : Bytes → ResponseCheckTx → Option String) (mem : Storage κ) : Prop :=
  Transition.Reachable (fun mem => Initial mem ∧ mem.postCheck = some f)
    (fun mem mem' => ∃ c, c.KeepsPostCheck f ∧ mem.call txKey c = .ok mem') mem

omit [DecidableEq κ] in
theorem NewStorage_empty (config : StorageConfig) (height : Int) (options : List StorageOption) :
    (NewStorage config height options : Storage κ).proxyAppConn = [] ∧
      (NewStorage config height options : Storage κ).txs.values = [] := by
  suffices ∀ (os : List StorageOption) (mem : Storage κ),
      (os.foldl StorageOption.apply mem).proxyAppConn = mem.proxyAppConn ∧
        (os.foldl StorageOption.apply mem).txs = mem.txs by
    obtain ⟨hq, ht⟩ := this options _
    exact ⟨hq, by rw [NewStorage, ht]; simp [CList.values]⟩
  intro os
  induction os with
  | nil => exact fun _ => ⟨rfl, rfl⟩
  | cons o os ih =>
      intro mem
      obtain ⟨hq, ht⟩ := ih (StorageOption.apply mem o)
      exact ⟨hq.trans (by cases o <;> rfl), ht.trans (apply_sameBook o).txs⟩

theorem PostCheckedReachable.foldlM {calls : List Call} (h : mem.PostCheckedReachable txKey f)
    (hc : ∀ c ∈ calls, c.KeepsPostCheck f) (hrun : calls.foldlM (call txKey) mem = .ok mem') :
    mem'.PostCheckedReachable txKey f := by
  induction calls generalizing mem with
  | nil =>
      cases hrun
      exact h
  | cons c calls ih =>
      simp only [List.foldlM_cons] at hrun
      obtain ⟨mem₁, h₁, hrun⟩ := Result.bind_eq_ok.mp hrun
      exact ih (Transition.Reachable.step h ⟨c, hc c List.mem_cons_self, h₁⟩)
        (fun c hmem => hc c (List.mem_cons_of_mem _ hmem)) hrun

theorem PostCheckedReachable.postChecked (h : mem.PostCheckedReachable txKey f) :
    mem.PostChecked txKey f := by
  refine Transition.Reachable.invariant ?_ (fun _ _ _ hs ⟨_, hc, hcall⟩ => hs.call hc hcall) h
  rintro _ ⟨⟨config, height, options, rfl⟩, hp⟩
  obtain ⟨hq, hv⟩ := NewStorage_empty (κ := κ) config height options
  exact ⟨NewStorage_inv config height options, hp, fun tx htx => by simp [hq] at htx,
    fun v hv' => by simp [hv] at hv'⟩

end Storage

/-! ### The reap -/

theorem UvarintSize_le (u : Nat) : UvarintSize u ≤ u + 1 := by
  induction u using Nat.strong_induction_on with
  | _ u ih =>
      rw [UvarintSize]
      split_ifs with h
      · omega
      · have := ih (u / 128) (by omega)
        omega

theorem ComputeAminoOverhead_bounds (tx : Bytes) :
    0 ≤ ComputeAminoOverhead tx 1 ∧ ComputeAminoOverhead tx 1 ≤ tx.length + 2 := by
  have hkey : UvarintSize (1 <<< 3 ||| 2) = 1 := UvarintSize_of_lt (by decide)
  have hlen := UvarintSize_le tx.length
  unfold ComputeAminoOverhead
  rw [hkey]
  omega

theorem PostCheckMaxGas_eq_none {maxGas : Int} (h : 0 ≤ maxGas) (tx : Bytes) (r : ResponseCheckTx) :
    PostCheckMaxGas maxGas tx r = none ↔ 0 ≤ r.GasWanted ∧ r.GasWanted ≤ maxGas := by
  unfold PostCheckMaxGas
  split_ifs <;> simp <;> omega

/-- What `ReapMaxBytesMaxGas(maxBytes, maxGas)` is for: the transactions from the front while
their sizes with the amino overhead, and their gas, added exactly to the totals before them, stay
within the limits that are not negative. -/
def reapWithin (maxBytes maxGas : Int) : Int → Int → List storageTx → List Bytes
  | _, _, [] => []
  | totalBytes, totalGas, memTx :: rest =>
      let size := memTx.tx.length + ComputeAminoOverhead memTx.tx 1
      if maxBytes > -1 ∧ totalBytes + size > maxBytes then []
      else if maxGas > -1 ∧ totalGas + memTx.gasWanted > maxGas then []
      else memTx.tx :: reapWithin maxBytes maxGas (totalBytes + size) (totalGas + memTx.gasWanted) rest

theorem reap_bytes_exact {maxBytes totalBytes : Int} {tx : Bytes}
    (hbytes : maxBytes + 2 ^ 21 ≤ maxInt64) (h0 : 0 ≤ totalBytes) (h1 : totalBytes ≤ maxBytes)
    (hlen : (tx.length : Int) ≤ maxTxSize) :
    wrap64 (wrap64 (totalBytes + tx.length) + ComputeAminoOverhead tx 1) =
        totalBytes + (tx.length + ComputeAminoOverhead tx 1) ∧
      wrap64 (totalBytes + wrap64 (tx.length + ComputeAminoOverhead tx 1)) =
        totalBytes + (tx.length + ComputeAminoOverhead tx 1) := by
  obtain ⟨ho0, ho1⟩ := ComputeAminoOverhead_bounds tx
  unfold maxTxSize at hlen
  -- every partial sum lies between `0` and `maxBytes + 2 ^ 21`
  have hfit : ∀ x : Int, 0 ≤ x → x ≤ totalBytes + (tx.length + ComputeAminoOverhead tx 1) →
      wrap64 x = x := fun x hx0 hx1 =>
    wrap64_of_inInt64 ⟨by unfold minInt64; omega, by omega⟩
  rw [hfit (totalBytes + tx.length) (by omega) (by omega),
    hfit (tx.length + ComputeAminoOverhead tx 1) (by omega) (by omega)]
  refine ⟨?_, hfit _ (by omega) le_rfl⟩
  rw [hfit (totalBytes + tx.length + ComputeAminoOverhead tx 1) (by omega) (by omega), Int.add_assoc]

theorem reap_gas_exact {maxGas g totalGas gas : Int} (hgas : maxGas + g ≤ maxInt64)
    (h0 : 0 ≤ totalGas) (h1 : totalGas ≤ maxGas) (hw0 : 0 ≤ gas) (hw1 : gas ≤ g) :
    wrap64 (totalGas + gas) = totalGas + gas :=
  wrap64_of_inInt64 ⟨by unfold minInt64; omega, by omega⟩

namespace Storage

variable {mem : Storage κ}

omit [DecidableEq κ] in
/-- From a live element, the loop of `ReapMaxBytesMaxGas` takes what `reapWithin` takes, when
every transaction it walks past fits and the limits leave room. Its totals are those of
`reapWithin` wherever a limit reads them. -/
theorem reapMaxBytesMaxGasLoop_eq (hl : mem.txs.Inv) {g maxBytes maxGas : Int}
    (hbytes : maxBytes + 2 ^ 21 ≤ maxInt64) (hgas : maxGas + g ≤ maxInt64) :
    ∀ (xs : List Nat) (fuel : Nat) (tb tg sb sg : Int) (acc : List Bytes),
      xs <:+ mem.txs.live → xs.length ≤ fuel →
      (∀ v ∈ xs.filterMap mem.txs.valueOf,
        (v.tx.length : Int) ≤ maxTxSize ∧ 0 ≤ v.gasWanted ∧ v.gasWanted ≤ g) →
      (maxBytes > -1 → tb = sb ∧ 0 ≤ sb ∧ sb ≤ maxBytes) →
      (maxGas > -1 → tg = sg ∧ 0 ≤ sg ∧ sg ≤ maxGas) →
      mem.reapMaxBytesMaxGasLoop maxBytes maxGas fuel xs.head? tb tg acc =
        .ok (acc ++ reapWithin maxBytes maxGas sb sg (xs.filterMap mem.txs.valueOf)) := by
  intro xs
  induction xs with
  | nil =>
      intro fuel tb tg sb sg acc _ _ _ _ _
      cases fuel <;> simp [reapMaxBytesMaxGasLoop, reapWithin]
  | cons e zs ih =>
      intro fuel tb tg sb sg acc hsuf hfuel hfit hb hg
      obtain ⟨fuel, rfl⟩ : ∃ f, fuel = f + 1 := ⟨fuel - 1, by simp at hfuel; omega⟩
      obtain ⟨v, hv, hval⟩ := CList.Value_of_mem_live (hsuf.subset List.mem_cons_self)
      have hzs : zs <:+ mem.txs.live := (List.suffix_cons _ _).trans hsuf
      obtain ⟨hlen, hw0, hw1⟩ := hfit v (by simp [hval])
      have hrest : ∀ w ∈ zs.filterMap mem.txs.valueOf,
          (w.tx.length : Int) ≤ maxTxSize ∧ 0 ≤ w.gasWanted ∧ w.gasWanted ≤ g :=
        fun w hw => hfit w (by simp [hval, hw])
      obtain ⟨ho0, -⟩ := ComputeAminoOverhead_bounds v.tx
      -- the tests of the loop are those of `reapWithin`
      have hc₁ : (maxBytes > -1 ∧
            wrap64 (wrap64 (tb + v.tx.length) + ComputeAminoOverhead v.tx 1) > maxBytes) ↔
          (maxBytes > -1 ∧ sb + (v.tx.length + ComputeAminoOverhead v.tx 1) > maxBytes) := by
        refine and_congr_right fun hpos => ?_
        obtain ⟨rfl, h0, h1⟩ := hb hpos
        rw [(reap_bytes_exact hbytes h0 h1 hlen).1]
      have hc₂ : (maxGas > -1 ∧ wrap64 (tg + v.gasWanted) > maxGas) ↔
          (maxGas > -1 ∧ sg + v.gasWanted > maxGas) := by
        refine and_congr_right fun hpos => ?_
        obtain ⟨rfl, h0, h1⟩ := hg hpos
        rw [reap_gas_exact hgas h0 h1 hw0 hw1]
      simp only [List.head?_cons, reapMaxBytesMaxGasLoop, hv, Result.ok_bind, List.filterMap_cons,
        hval, reapWithin]
      by_cases s₁ : maxBytes > -1 ∧ sb + (v.tx.length + ComputeAminoOverhead v.tx 1) > maxBytes
      · rw [if_pos (hc₁.mpr s₁), if_pos s₁, List.append_nil]
      rw [if_neg (mt hc₁.mp s₁), if_neg s₁]
      by_cases s₂ : maxGas > -1 ∧ sg + v.gasWanted > maxGas
      · rw [if_pos (hc₂.mpr s₂), if_pos s₂, List.append_nil]
      rw [if_neg (mt hc₂.mp s₂), if_neg s₂, CList.Next_of_suffix hl hsuf, Result.ok_bind,
        ih fuel _ _ (sb + (v.tx.length + ComputeAminoOverhead v.tx 1)) (sg + v.gasWanted) _ hzs
          (by simpa using hfuel) hrest ?_ ?_, List.append_assoc, List.singleton_append]
      · -- the new byte total is the exact one, and within the limit
        intro hpos
        obtain ⟨rfl, h0, h1⟩ := hb hpos
        exact ⟨(reap_bytes_exact hbytes h0 h1 hlen).2, by omega, by simp [hpos] at s₁; omega⟩
      · intro hpos
        obtain ⟨rfl, h0, h1⟩ := hg hpos
        exact ⟨reap_gas_exact hgas h0 h1 hw0 hw1, by omega, by simp [hpos] at s₂; omega⟩

omit [DecidableEq κ] in
theorem ReapMaxBytesMaxGas_eq (hl : mem.txs.Inv) {g maxBytes maxGas : Int}
    (hfit : ∀ v ∈ mem.txs.values,
      (v.tx.length : Int) ≤ maxTxSize ∧ 0 ≤ v.gasWanted ∧ v.gasWanted ≤ g)
    (hbytes : maxBytes + 2 ^ 21 ≤ maxInt64) (hgas : maxGas + g ≤ maxInt64) :
    mem.ReapMaxBytesMaxGas maxBytes maxGas = .ok (reapWithin maxBytes maxGas 0 0 mem.txs.values) := by
  unfold ReapMaxBytesMaxGas
  rw [CList.Front, hl.head, reapMaxBytesMaxGasLoop_eq hl hbytes hgas _ _ 0 0 0 0 [] List.suffix_rfl
    (CList.length_live_le _) hfit (fun h => ⟨rfl, le_rfl, by omega⟩)
    (fun h => ⟨rfl, le_rfl, by omega⟩), List.nil_append]
  rfl

/-- In every mempool that a run under `PostCheckMaxGas g` reaches, every listed transaction
wants between `0` and `g` gas, and `ReapMaxBytesMaxGas(maxBytes, maxGas)` returns the longest
prefix of the listed transactions whose sizes and gas, added exactly, stay within the limits, as
long as `maxBytes` stays `2 ^ 21` below `MaxInt64` and `maxGas + g` fits in an `int64`. -/
theorem reachable_reapMaxBytesMaxGas {g maxBytes maxGas : Int}
    (h : mem.PostCheckedReachable txKey (PostCheckMaxGas g)) (hg : 0 ≤ g)
    (hbytes : maxBytes + 2 ^ 21 ≤ maxInt64) (hgas : maxGas + g ≤ maxInt64) :
    (∀ v ∈ mem.txs.values, 0 ≤ v.gasWanted ∧ v.gasWanted ≤ g) ∧
      mem.ReapMaxBytesMaxGas maxBytes maxGas =
        .ok (reapWithin maxBytes maxGas 0 0 mem.txs.values) := by
  have hp := h.postChecked
  -- what `PostCheckMaxGas g` lets through
  have hfit : ∀ v ∈ mem.txs.values,
      (v.tx.length : Int) ≤ maxTxSize ∧ 0 ≤ v.gasWanted ∧ v.gasWanted ≤ g := by
    intro v hv
    obtain ⟨hlen, r, -, hr, hpost⟩ := hp.listed v hv
    exact ⟨hlen, hr ▸ (PostCheckMaxGas_eq_none hg v.tx r).mp hpost⟩
  exact ⟨fun v hv => (hfit v hv).2, ReapMaxBytesMaxGas_eq hp.inv.txs hfit hbytes hgas⟩

/-- Under `PostCheckMaxGas 10`, first checks of `[0]` and `[1]` answered with `4` and `7` gas:
both are listed, and a reap under the gas limit `10` takes the first alone. -/
theorem reachable_reapMaxBytesMaxGas_sample :
    ∃ mem : Storage Bytes, mem.PostCheckedReachable id (PostCheckMaxGas 10) ∧
      mem.txs.values = [⟨0, 4, [0]⟩, ⟨0, 7, [1]⟩] ∧
      (∀ v ∈ mem.txs.values, 0 ≤ v.gasWanted ∧ v.gasWanted ≤ 10) ∧
      mem.ReapMaxBytesMaxGas 100 10 = .ok [[0]] := by
  obtain ⟨mem, hrun, hvals⟩ : ∃ mem : Storage Bytes,
      [Call.checkTx [0] none, .checkTx [1] none, .response (.checkTx ⟨CodeTypeOK, 4⟩),
        .response (.checkTx ⟨CodeTypeOK, 7⟩)].foldlM (call id)
        (NewStorage ⟨10, 100, 0, true⟩ 0 [.WithPostCheck (some (PostCheckMaxGas 10))]) = .ok mem ∧
      mem.txs.values = [⟨0, 4, [0]⟩, ⟨0, 7, [1]⟩] := by
    simp [call, NewStorage, StorageOption.apply, CheckTxWithInfo, Size, TxsBytes, CList.Len,
      CList.New, txCache.Push, didRecvResponse, reqResCb, resCbFirstTime, globalCb, addTx,
      CList.PushBack, notifyTxsAvailable, postCheckErr, PostCheckMaxGas, wrap64, maxTxSize,
      CodeTypeOK, MaxLength, maxInt64, CList.values, CList.live, CList.isLive, CList.valueOf,
      CList.SetPrev, CList.SetNext, CList.modify, List.range_succ]
  have hreach : mem.PostCheckedReachable id (PostCheckMaxGas 10) :=
    PostCheckedReachable.foldlM (.init ⟨⟨_, _, _, rfl⟩, rfl⟩) (by simp [Call.KeepsPostCheck]) hrun
  obtain ⟨hgas, hreap⟩ := reachable_reapMaxBytesMaxGas hreach (by norm_num)
    (by norm_num [maxInt64] : (100 : Int) + 2 ^ 21 ≤ maxInt64)
    (by norm_num [maxInt64] : (10 : Int) + 10 ≤ maxInt64)
  refine ⟨mem, hreach, hvals, hgas, ?_⟩
  rw [hreap, hvals]
  simp [reapWithin, ComputeAminoOverhead, UvarintSize_of_lt]

end Storage

end Dgrid.Blockchain
