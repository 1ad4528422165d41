import Dgrid.Blockchain.StorageSpec

/-! The reaps of the mempool. `ReapMaxTxs` walks the list while it has taken at most `max`
transactions, so it takes one more than `max`. `ReapMaxBytesMaxGas` adds the gas of the
transactions in `int64`, and the application's `gasWanted` can make the sum wrap. -/

namespace Dgrid.Blockchain
open Go Dgrid.Clist

variable {κ : Type} [DecidableEq κ] {txKey : Bytes → κ}

theorem UvarintSize_of_lt {u : Nat} (h : u < 128) : UvarintSize u = 1 := by
  rw [UvarintSize, if_pos h]

namespace Storage

variable {mem : Storage κ}

omit [DecidableEq κ] in
theorem reapMaxTxsLoop_suffix {max : Int} (hl : mem.txs.Inv) :
    ∀ (xs : List Nat) (fuel : Nat) (acc : List Bytes), xs <:+ mem.txs.live → xs.length ≤ fuel →
      mem.reapMaxTxsLoop max fuel xs.head? acc =
        .ok (acc ++ ((xs.filterMap mem.txs.valueOf).map storageTx.tx).take
          (max + 1 - acc.length).toNat) := by
  intro xs
  induction xs with
  | nil =>
      intro fuel acc _ _
      cases fuel <;> simp [reapMaxTxsLoop]
  | cons e zs ih =>
      intro fuel acc hsuf hfuel
      obtain ⟨fuel, rfl⟩ : ∃ f, fuel = f + 1 := ⟨fuel - 1, by simp at hfuel; omega⟩
      obtain ⟨v, hv, hval⟩ := CList.Value_of_mem_live (hsuf.subset List.mem_cons_self)
      have hzs : zs <:+ mem.txs.live := (List.suffix_cons _ _).trans hsuf
      simp only [List.head?_cons, reapMaxTxsLoop, List.filterMap_cons, hval, List.map_cons]
      split_ifs with hmax
      · -- one more is taken: the budget left drops by one
        simp only [hv, CList.Next_of_suffix hl hsuf, Result.ok_bind,
          ih fuel _ hzs (by simpa using hfuel), List.length_append, List.length_singleton]
        obtain ⟨n, hn⟩ : ∃ n, (max + 1 - acc.length).toNat = n + 1 := ⟨_, (Nat.succ_pred_eq_of_pos
          (by omega)).symm⟩
        rw [hn, List.take_succ_cons, List.append_assoc, List.singleton_append]
        congr 4
        omega
      · have : (max + 1 - acc.length).toNat = 0 := by omega
        rw [this, List.take_zero, List.append_nil]

omit [DecidableEq κ] in
theorem ReapMaxTxs_eq (hl : mem.txs.Inv) (max : Int) :
    mem.ReapMaxTxs max =
      .ok (if max < 0 then mem.listedTxs else mem.listedTxs.take (max.toNat + 1)) := by
  have hloop := fun max : Int => @reapMaxTxsLoop_suffix _ mem max hl mem.txs.live
    mem.txs.elems.length [] List.suffix_rfl (CList.length_live_le _)
  simp only [List.nil_append, List.length_nil, Int.natCast_zero, Int.sub_zero] at hloop
  unfold ReapMaxTxs
  rw [CList.Front, hl.head]
  split_ifs with hmax
  · rw [hloop]
    congr 1
    -- with `max` set to `Len()`, the budget is past the end of the list
    apply List.take_of_length_le
    have hlen : (mem.txs.live.filterMap mem.txs.valueOf).length ≤ mem.txs.live.length :=
      List.length_filterMap_le _ _
    rw [List.length_map, CList.Len, hl.len]
    omega
  · rw [hloop]
    congr 2
    omega

/-- One transaction in the mempool, and `ReapMaxTxs(0)` returns it. -/
theorem ReapMaxTxs_zero_takes_one :
    ∃ mem : Storage κ, mem.Reachable txKey ∧ mem.Size = 1 ∧ mem.ReapMaxTxs 0 = .ok [[0]] := by
  obtain ⟨mem, hrun, hsize, hlisted⟩ : ∃ mem : Storage κ,
      [Call.checkTx [0] none, .response (.checkTx ⟨CodeTypeOK, 0⟩)].foldlM (call txKey)
        (NewStorage ⟨10, 100, 1, true⟩ 0 []) = .ok mem ∧ mem.Size = 1 ∧ mem.listedTxs = [[0]] := by
    simp [call, NewStorage, CheckTxWithInfo, Size, TxsBytes, CList.Len, CList.New,
      txCache.Push, mapTxCache.Push, mapTxCache.newMapTxCache, GoList.New, GoList.Len,
      GoList.PushBack, didRecvResponse, reqResCb, resCbFirstTime, globalCb, addTx,
      CList.PushBack, notifyTxsAvailable, postCheckErr, wrap64, maxTxSize, CodeTypeOK, MaxLength,
      maxInt64, listedTxs, CList.values, CList.live, CList.isLive, CList.valueOf]
  have h : mem.Reachable txKey := Reachable.foldlM (.init ⟨_, _, _, rfl⟩) hrun
  refine ⟨mem, h, hsize, ?_⟩
  rw [ReapMaxTxs_eq (reachable_inv h).txs, hlisted]
  rfl

/-- Two transactions, each accepted with a `gasWanted` of `MaxInt64`: under the gas limit
`MaxInt64` and no byte limit, `ReapMaxBytesMaxGas` returns both, since their gas adds up to `-2`
in `int64`. -/
theorem ReapMaxBytesMaxGas_gas_wraps :
    ∃ mem : Storage κ, mem.Reachable txKey ∧
      mem.txs.values = [⟨0, maxInt64, [0]⟩, ⟨0, maxInt64, [1]⟩] ∧
      mem.ReapMaxBytesMaxGas (-1) maxInt64 = .ok [[0], [1]] := by
  obtain ⟨mem, hrun, hvals, hreap⟩ : ∃ mem : Storage κ,
      [Call.checkTx [0] none, .checkTx [1] none, .response (.checkTx ⟨CodeTypeOK, maxInt64⟩),
        .response (.checkTx ⟨CodeTypeOK, maxInt64⟩)].foldlM (call txKey)
        (NewStorage ⟨10, 100, 0, true⟩ 0 []) = .ok mem ∧
      mem.txs.values = [⟨0, maxInt64, [0]⟩, ⟨0, maxInt64, [1]⟩] ∧
      mem.ReapMaxBytesMaxGas (-1) maxInt64 = .ok [[0], [1]] := by
    simp [call, NewStorage, CheckTxWithInfo, Size, TxsBytes, CList.Len, CList.New,
      txCache.Push, didRecvResponse, reqResCb, resCbFirstTime, globalCb, addTx,
      CList.PushBack, notifyTxsAvailable, postCheckErr, wrap64, maxTxSize, CodeTypeOK, MaxLength,
      maxInt64, CList.values, CList.live, CList.isLive, CList.valueOf, CList.SetPrev,
      CList.SetNext, CList.modify, ReapMaxBytesMaxGas, reapMaxBytesMaxGasLoop, CList.Value,
      CList.Next, CList.elem, CList.Front, ComputeAminoOverhead, UvarintSize_of_lt, List.range_succ]
  exact ⟨mem, Reachable.foldlM (.init ⟨_, _, _, rfl⟩) hrun, hvals, hreap⟩

end Storage

end Dgrid.Blockchain
