import Dgrid.Blockchain.Recheck

/-! The channel `TxsAvailable()`. It has one buffered slot, and `notifyTxsAvailable` sends on it
with a `select` that drops the value when the slot is full; `notifiedTxsAvailable` lets it send once
per height, and only `Update` clears it. So between two `Update` calls at most one value is sent,
and only into a non-empty mempool. After an `Update` and its recheck a non-empty mempool is
notified, but a value is sent then only if the consumer has taken the previous one: otherwise the
send is dropped and the slot keeps the old value. -/

namespace Dgrid.Blockchain
open Go Dgrid.Clist

variable {κ : Type} [DecidableEq κ] {txKey : Bytes → κ}

/-- Whether a call is an `Update`. -/
def Call.isUpdate : Call → Bool
  | .update .. => true
  | _ => false

namespace Storage

variable {mem mem' mem₁ : Storage κ}

/-- The channel got a value: its one slot went from empty to full. -/
def Sends (mem mem' : Storage κ) : Prop :=
  mem.txsAvailable = some false ∧ mem'.txsAvailable = some true

instance (mem mem' : Storage κ) : Decidable (Sends mem mem') :=
  inferInstanceAs (Decidable (_ ∧ _))

/-- What a call does to the channel and its flag: nothing, or what `notifyTxsAvailable` does, in
a mempool left non-empty. -/
inductive ChanStep (mem mem' : Storage κ) : Prop where
  | keep (notified : mem'.notifiedTxsAvailable = mem.notifiedTxsAvailable)
      (txsAvailable : mem'.txsAvailable = mem.txsAvailable)
  | notify (size : mem'.Size ≠ 0)
      (chan : (mem'.notifiedTxsAvailable, mem'.txsAvailable) =
        if mem.txsAvailable.isSome ∧ !mem.notifiedTxsAvailable then (true, some true)
        else (mem.notifiedTxsAvailable, mem.txsAvailable))

omit [DecidableEq κ] in
theorem ChanStep.of_notify (h : mem.notifyTxsAvailable = .ok mem') : ChanStep mem mem' := by
  obtain ⟨hsize, rfl⟩ := notifyTxsAvailable_ok h
  by_cases hc : mem.txsAvailable.isSome ∧ !mem.notifiedTxsAvailable
  · rw [if_pos hc]
    exact .notify hsize (if_pos hc).symm
  · rw [if_neg hc]
    exact .keep rfl rfl

omit [DecidableEq κ] in
theorem ChanStep.congr_left (h : ChanStep mem₁ mem')
    (hn : mem₁.notifiedTxsAvailable = mem.notifiedTxsAvailable)
    (ha : mem₁.txsAvailable = mem.txsAvailable) : ChanStep mem mem' := by
  cases h with
  | keep hn' ha' => exact .keep (hn'.trans hn) (ha'.trans ha)
  | notify hsize hchan => exact .notify hsize (by rw [hchan, hn, ha])

omit [DecidableEq κ] in
theorem ChanStep.sends (h : ChanStep mem mem') (hs : Sends mem mem') :
    mem'.Size ≠ 0 ∧ mem'.notifiedTxsAvailable = true ∧ mem.notifiedTxsAvailable = false := by
  obtain ⟨hempty, hfull⟩ := hs
  cases h with
  | keep _ ha => simp [hempty, hfull] at ha
  | notify hsize hchan =>
      by_cases hc : mem.txsAvailable.isSome ∧ !mem.notifiedTxsAvailable
      · rw [if_pos hc, Prod.mk.injEq] at hchan
        exact ⟨hsize, hchan.1, by simpa using hc.2⟩
      · rw [if_neg hc, Prod.mk.injEq] at hchan
        simp [hempty, hfull] at hchan

omit [DecidableEq κ] in
theorem ChanStep.notified (h : ChanStep mem mem') (hn : mem.notifiedTxsAvailable = true) :
    mem'.notifiedTxsAvailable = true := by
  cases h with
  | keep hn' _ => rw [hn', hn]
  | notify _ hchan =>
      rw [if_neg (by simp [hn]), Prod.mk.injEq] at hchan
      rw [hchan.1, hn]

omit [DecidableEq κ] in
theorem ChanStep.isSome (h : ChanStep mem mem') (hs : mem.txsAvailable.isSome) :
    mem'.txsAvailable.isSome := by
  cases h with
  | keep _ ha => rwa [ha]
  | notify _ hchan =>
      split_ifs at hchan <;> rw [Prod.mk.injEq] at hchan <;> simp [hchan.2, hs]

/-! ### The handlers -/

theorem resCbFirstTime_chan {tx : Bytes} {res : Response}
    (h : mem.resCbFirstTime txKey tx res = .ok mem') :
    ChanStep mem mem' ∧ mem'.recheckCursor = mem.recheckCursor := by
  unfold resCbFirstTime at h
  split at h
  · split_ifs at h
    · obtain ⟨mem₁, h₁, h⟩ := Result.bind_eq_ok.mp h
      obtain ⟨⟨e, txs⟩, -, h₁⟩ := Result.bind_eq_ok.mp h₁
      cases h₁
      obtain ⟨-, hm⟩ := notifyTxsAvailable_ok h
      refine ⟨(ChanStep.of_notify h).congr_left rfl rfl, ?_⟩
      rw [hm]
      split_ifs <;> rfl
    · cases h
      exact ⟨.keep rfl rfl, rfl⟩
  · cases h
    exact ⟨.keep rfl rfl, rfl⟩

theorem resCbRecheck_chan {tx : Bytes} {res : Response}
    (h : mem.resCbRecheck txKey tx res = .ok mem') : ChanStep mem mem' := by
  unfold resCbRecheck at h
  split at h
  · split at h
    · cases h
    · obtain ⟨memTx, -, h⟩ := Result.bind_eq_ok.mp h
      by_cases htx : tx = memTx.tx
      swap
      · rw [if_pos htx] at h
        cases h
      rw [if_neg (not_not.mpr htx)] at h
      obtain ⟨mem₁, h₁, h⟩ := Result.bind_eq_ok.mp h
      -- the verdict leaves the channel alone
      have hc₁ : mem₁.notifiedTxsAvailable = mem.notifiedTxsAvailable ∧
          mem₁.txsAvailable = mem.txsAvailable := by
        split_ifs at h₁
        · cases h₁
          exact ⟨rfl, rfl⟩
        · have hrest := congrArg (fun m : Storage κ => (m.notifiedTxsAvailable, m.txsAvailable))
            (removeTx_rest h₁)
          simpa using hrest
      obtain ⟨next, -, h⟩ := Result.bind_eq_ok.mp h
      dsimp only at h
      split_ifs at h
      · exact (ChanStep.of_notify h).congr_left hc₁.1 hc₁.2
      all_goals cases h; exact .keep hc₁.1 hc₁.2
  · cases h
    exact .keep rfl rfl

theorem globalCb_chan {req : Request} {res : Response}
    (h : mem.globalCb txKey req res = .ok mem') : ChanStep mem mem' := by
  unfold globalCb at h
  split_ifs at h
  · cases h
    exact .keep rfl rfl
  · exact resCbRecheck_chan h

theorem didRecvResponse_chan {res : Response} (h : mem.didRecvResponse txKey res = .ok mem') :
    ChanStep mem mem' := by
  unfold didRecvResponse at h
  split at h
  · cases h
  · rename_i req rest _
    split at h
    · -- a first check: the recheck cursor is `nil`, so the global callback does nothing
      obtain ⟨mem₁, h₁, h⟩ := Result.bind_eq_ok.mp h
      unfold reqResCb at h₁
      split_ifs at h₁ with hcur
      obtain ⟨hchan, hcur₁⟩ := resCbFirstTime_chan h₁
      rw [globalCb, if_pos (by simpa [hcur₁] using hcur)] at h
      cases h
      exact hchan.congr_left rfl rfl
    · exact (globalCb_chan h).congr_left rfl rfl

theorem Update_chan {height : Int} {txs : List Bytes} {preCheck : Option (Bytes → Option String)}
    {postCheck : Option (Bytes → ResponseCheckTx → Option String)} (hi : mem.Inv txKey)
    (h : mem.Update txKey height txs preCheck postCheck = .ok mem') :
    ChanStep { mem with notifiedTxsAvailable := false } mem' := by
  obtain ⟨mem₂, -, -, hframe, hU⟩ := Update_spec hi h
  have hc := congrArg (fun m : Storage κ => (m.notifiedTxsAvailable, m.txsAvailable)) hframe
  simp only [Prod.mk.injEq] at hc
  split_ifs at hU
  · cases hU
    unfold recheckTxs
    split_ifs <;> exact .keep hc.1 hc.2
  · exact (ChanStep.of_notify hU).congr_left hc.1 hc.2
  · cases hU
    exact .keep hc.1 hc.2

/-! ### Calls and runs -/

/-- What one call does with the channel: a send sets the flag, which was clear unless the call is
an `Update`, in a mempool left non-empty; only `Update` clears the flag; and the channel, once
made, stays. -/
theorem call_sends {c : Call} (hi : mem.Inv txKey) (h : mem.call txKey c = .ok mem') :
    (Sends mem mem' → mem'.Size ≠ 0 ∧ mem'.notifiedTxsAvailable = true ∧
        (mem.notifiedTxsAvailable = false ∨ c.isUpdate = true)) ∧
      (c.isUpdate = false → mem.notifiedTxsAvailable = true → mem'.notifiedTxsAvailable = true) ∧
      (mem.txsAvailable.isSome → mem'.txsAvailable.isSome) := by
  -- every call but `Update`, `EnableTxsAvailable` and the receive is a step of the channel
  have hstep : ChanStep mem mem' → (Sends mem mem' → mem'.Size ≠ 0 ∧
      mem'.notifiedTxsAvailable = true ∧ (mem.notifiedTxsAvailable = false ∨ c.isUpdate = true)) ∧
      (c.isUpdate = false → mem.notifiedTxsAvailable = true → mem'.notifiedTxsAvailable = true) ∧
      (mem.txsAvailable.isSome → mem'.txsAvailable.isSome) := fun hc =>
    ⟨fun hs => ⟨(hc.sends hs).1, (hc.sends hs).2.1, .inl (hc.sends hs).2.2⟩,
      fun _ hn => hc.notified hn, hc.isSome⟩
  cases c with
  | checkTx tx connErr =>
      obtain ⟨⟨r, mem₁⟩, h₁, h⟩ := Result.bind_eq_ok.mp h
      cases h
      obtain ⟨cache, proxyAppConn, rfl⟩ := CheckTxWithInfo_frame h₁
      exact hstep (.keep rfl rfl)
  | response res => exact hstep (didRecvResponse_chan h)
  | update height txs preCheck postCheck =>
      have hc := Update_chan hi h
      refine ⟨fun hs => ?_, fun hu => absurd hu (by simp [Call.isUpdate]), hc.isSome⟩
      obtain ⟨hsize, hn, -⟩ := hc.sends hs
      exact ⟨hsize, hn, .inr rfl⟩
  | flush =>
      obtain ⟨txs, -, h⟩ := Result.bind_eq_ok.mp h
      cases h
      exact hstep (.keep rfl rfl)
  | enableTxsAvailable =>
      cases h
      exact ⟨fun hs => absurd hs.2 (by simp [EnableTxsAvailable]), fun _ hn => hn, fun _ => rfl⟩
  | recvTxsAvailable =>
      cases h
      unfold recvTxsAvailable
      split_ifs with hfull
      · exact ⟨fun hs => absurd hs.2 (by simp), fun _ hn => hn, fun _ => rfl⟩
      · exact ⟨fun hs => absurd (hs.1.symm.trans hs.2) (by simp), fun _ hn => hn, id⟩

variable (txKey) in
/-- A run of calls from `mem`: how many of them send a value on the channel, and the mempool the
run ends in. -/
def sendsAlong (mem : Storage κ) : List Call → Result (Nat × Storage κ)
  | [] => .ok (0, mem)
  | c :: cs => do
      let mem' ← mem.call txKey c
      let (n, mem'') ← sendsAlong mem' cs
      pure ((if Sends mem mem' then 1 else 0) + n, mem'')

theorem sendsAlong_cons {c : Call} {cs : List Call} {n : Nat} {mem'' : Storage κ}
    (h : mem.sendsAlong txKey (c :: cs) = .ok (n, mem'')) :
    ∃ mem' n', mem.call txKey c = .ok mem' ∧ mem'.sendsAlong txKey cs = .ok (n', mem'') ∧
      n = (if Sends mem mem' then 1 else 0) + n' := by
  obtain ⟨mem', h₁, h⟩ := Result.bind_eq_ok.mp h
  obtain ⟨⟨n', mem₂⟩, h₂, h⟩ := Result.bind_eq_ok.mp h
  cases h
  exact ⟨mem', n', h₁, h₂, rfl⟩

theorem sendsAlong_of_foldlM : ∀ (cs : List Call) (mem mem' : Storage κ),
    cs.foldlM (call txKey) mem = .ok mem' → ∃ n, mem.sendsAlong txKey cs = .ok (n, mem')
  | [], _, _, h => by
      cases h
      exact ⟨0, rfl⟩
  | c :: cs, mem, mem', h => by
      simp only [List.foldlM_cons] at h
      obtain ⟨mem₁, h₁, h⟩ := Result.bind_eq_ok.mp h
      obtain ⟨n, hn⟩ := sendsAlong_of_foldlM cs mem₁ mem' h
      refine ⟨(if Sends mem mem₁ then 1 else 0) + n, ?_⟩
      rw [sendsAlong, h₁, Result.ok_bind, hn]
      rfl

theorem sendsAlong_segment : ∀ (cs : List Call) (mem mem'' : Storage κ) (n : Nat),
    mem.Inv txKey → (∀ c ∈ cs, c.isUpdate = false) →
    mem.sendsAlong txKey cs = .ok (n, mem'') →
    n ≤ 1 ∧ (mem.notifiedTxsAvailable = true → n = 0)
  | [], _, _, _, _, _, h => by
      cases h
      exact ⟨Nat.zero_le _, fun _ => rfl⟩
  | c :: cs, mem, mem'', n, hi, hcs, h => by
      obtain ⟨mem', n', h₁, h₂, rfl⟩ := sendsAlong_cons h
      obtain ⟨hsend, hmono, -⟩ := call_sends hi h₁
      have hc : c.isUpdate = false := hcs c List.mem_cons_self
      obtain ⟨hle, hzero⟩ := sendsAlong_segment cs mem' mem'' n' (call_inv hi h₁)
        (fun c' hc' => hcs c' (List.mem_cons_of_mem c hc')) h₂
      by_cases hs : Sends mem mem'
      · -- this call sends: the flag was clear and is set now, so nothing more is sent
        obtain ⟨-, hn', hn | hu⟩ := hsend hs
        · rw [if_pos hs, hzero hn']
          exact ⟨le_rfl, fun h => absurd (h.symm.trans hn) (by simp)⟩
        · simp [hc] at hu
      · rw [if_neg hs, Nat.zero_add]
        exact ⟨hle, fun hn => hzero (hmono hc hn)⟩

theorem sendsAlong_le_one {c : Call} {cs : List Call} {n : Nat} {mem'' : Storage κ}
    (hi : mem.Inv txKey) (hcs : ∀ c' ∈ cs, c'.isUpdate = false)
    (h : mem.sendsAlong txKey (c :: cs) = .ok (n, mem'')) : n ≤ 1 := by
  obtain ⟨mem', n', h₁, h₂, rfl⟩ := sendsAlong_cons h
  obtain ⟨hsend, -, -⟩ := call_sends hi h₁
  obtain ⟨hle, hzero⟩ := sendsAlong_segment cs mem' mem'' n' (call_inv hi h₁) hcs h₂
  by_cases hs : Sends mem mem'
  · rw [if_pos hs, hzero (hsend hs).2.1]
  · rw [if_neg hs]
    omega

theorem sendsAlong_zero : ∀ (cs : List Call) (mem mem'' : Storage κ), mem.Inv txKey →
    mem.sendsAlong txKey cs = .ok (0, mem'') → mem.txsAvailable = some false →
    mem''.txsAvailable = some false
  | [], _, _, _, h, hempty => by
      cases h
      exact hempty
  | c :: cs, mem, mem'', hi, h, hempty => by
      obtain ⟨mem', n', h₁, h₂, hn⟩ := sendsAlong_cons h
      have hs : ¬Sends mem mem' := fun hs => by
        rw [if_pos hs] at hn
        omega
      rw [if_neg hs, Nat.zero_add] at hn
      subst hn
      -- the channel is still made, and no value went in
      have hsome := (call_sends hi h₁).2.2 (by simp [hempty])
      have hempty' : mem'.txsAvailable = some false := by
        cases hv : mem'.txsAvailable with
        | none => simp [hv] at hsome
        | some b => cases b <;> simp_all [Sends]
      exact sendsAlong_zero cs mem' mem'' (call_inv hi h₁) h₂ hempty'

omit [DecidableEq κ] in
theorem Size_pos (hl : mem.txs.Inv) (h : mem.Size ≠ 0) : 0 < mem.Size := by
  rw [Size, CList.Len, hl.len] at *
  omega

/-- `Update` from an idle mempool and the responses to its recheck: the mempool is idle again, and
if it is non-empty its channel holds a value and the flag is set; if the channel was empty when
`Update` was called, exactly one value was sent. -/
theorem Update_recheck_notifies {height : Int} {txs : List Bytes}
    {preCheck : Option (Bytes → Option String)}
    {postCheck : Option (Bytes → ResponseCheckTx → Option String)} (hi : mem.Inv txKey)
    (hidle : mem.Idle) (hU : mem.Update txKey height txs preCheck postCheck = .ok mem')
    (rs : List ResponseCheckTx) (hlen : rs.length = mem'.proxyAppConn.length) :
    ∃ (mem'' : Storage κ) (n : Nat),
      mem.sendsAlong txKey (.update height txs preCheck postCheck ::
        rs.map fun r => .response (.checkTx r)) = .ok (n, mem'') ∧ mem''.Idle ∧
      (0 < mem''.Size → mem.txsAvailable.isSome →
        mem''.notifiedTxsAvailable = true ∧ mem''.txsAvailable = some true ∧
        (mem.txsAvailable = some false → n = 1)) := by
  obtain ⟨mem'', hrun, -, hidle'', -, -, hchan⟩ := Update_recheck_run hi hidle hU rs hlen
  have hfold : (Call.update height txs preCheck postCheck ::
      rs.map fun r => .response (.checkTx r)).foldlM (call txKey) mem = .ok mem'' := by
    simp only [List.foldlM_cons, List.foldlM_map]
    rw [call, hU, Result.ok_bind]
    exact hrun
  obtain ⟨n, hn⟩ := sendsAlong_of_foldlM _ mem mem'' hfold
  refine ⟨mem'', n, hn, hidle'', fun hpos hsome => ?_⟩
  rw [if_pos ⟨hpos, hsome⟩, Prod.mk.injEq] at hchan
  refine ⟨hchan.1, hchan.2, fun hempty => ?_⟩
  -- the channel went from empty to full, so some call sent, and at most one did
  have hle : n ≤ 1 := sendsAlong_le_one hi (by simp [Call.isUpdate]) hn
  have hne : n ≠ 0 := by
    rintro rfl
    have := sendsAlong_zero _ mem mem'' hi hn hempty
    rw [hchan.2] at this
    simp at this
  omega

/-- The channel `TxsAvailable()` along every run from `NewStorage`: a run from a reachable mempool
whose calls after the first are not `Update` (the calls between two `Update` calls, the first one
included, or the calls before the first) sends at most one value; a value is sent only into a
non-empty mempool; and after an `Update` and the responses to its recheck a non-empty mempool has a
value waiting in the channel and the flag set, the value sent then if the channel was empty. -/
theorem txsAvailable_once_per_height :
    (∀ (mem mem'' : Storage κ) (c : Call) (cs : List Call) (n : Nat), mem.Reachable txKey →
      (∀ c' ∈ cs, c'.isUpdate = false) → mem.sendsAlong txKey (c :: cs) = .ok (n, mem'') →
      n ≤ 1) ∧
    (∀ (mem mem' : Storage κ) (c : Call), mem.Reachable txKey → mem.call txKey c = .ok mem' →
      Sends mem mem' → 0 < mem'.Size) ∧
    (∀ (mem mem' : Storage κ) (height : Int) (txs : List Bytes)
      (preCheck : Option (Bytes → Option String))
      (postCheck : Option (Bytes → ResponseCheckTx → Option String)) (rs : List ResponseCheckTx),
      mem.Reachable txKey → mem.Idle →
      mem.Update txKey height txs preCheck postCheck = .ok mem' →
      rs.length = mem'.proxyAppConn.length →
      ∃ (mem'' : Storage κ) (n : Nat),
        mem.sendsAlong txKey (.update height txs preCheck postCheck ::
          rs.map fun r => .response (.checkTx r)) = .ok (n, mem'') ∧ mem''.Idle ∧
        (0 < mem''.Size → mem.txsAvailable.isSome →
          mem''.notifiedTxsAvailable = true ∧ mem''.txsAvailable = some true ∧
          (mem.txsAvailable = some false → n = 1))) := by
  refine ⟨fun mem mem'' c cs n hr hcs h => sendsAlong_le_one (reachable_inv hr) hcs h,
    fun mem mem' c hr h hs => ?_,
    fun mem mem' height txs preCheck postCheck rs hr hidle hU hlen =>
      Update_recheck_notifies (reachable_inv hr) hidle hU rs hlen⟩
  have hi' := call_inv (reachable_inv hr) h
  exact Size_pos hi'.txs ((call_sends (reachable_inv hr) h).1 hs).1

/-- The three parts at runs that exercise them: two transactions checked with the channel on, of
which only the first response sends; that response; and an `Update` that leaves one
transaction, whose recheck response then runs. -/
theorem txsAvailable_once_per_height_run :
    let ok : ResponseCheckTx := ⟨CodeTypeOK, 0⟩
    let mem₀ : Storage Bytes := NewStorage ⟨10, 100, 2, true⟩ 0 []
    (∃ n mem'', mem₀.sendsAlong id [.enableTxsAvailable, .checkTx [0] none, .response (.checkTx ok),
        .checkTx [1] none, .response (.checkTx ok)] = .ok (n, mem'') ∧ n ≤ 1) ∧
    (∃ mem mem' : Storage Bytes, mem.Reachable id ∧ mem.call id (.response (.checkTx ok)) = .ok mem' ∧
      Sends mem mem' ∧ 0 < mem'.Size) ∧
    ∃ mem mem' : Storage Bytes, mem.Reachable id ∧ mem.Idle ∧ mem.Update id 1 [[0]] none none = .ok mem' ∧
      [ok].length = mem'.proxyAppConn.length ∧
      ∃ (mem'' : Storage Bytes) (n : Nat),
        mem.sendsAlong id (.update 1 [[0]] none none :: [ok].map fun r => .response (.checkTx r)) =
          .ok (n, mem'') ∧ mem''.Idle ∧
        (0 < mem''.Size → mem.txsAvailable.isSome →
          mem''.notifiedTxsAvailable = true ∧ mem''.txsAvailable = some true ∧
          (mem.txsAvailable = some false → n = 1)) := by
  intro ok mem₀
  have hthm := @txsAvailable_once_per_height Bytes _ id
  have h₀ : mem₀.Reachable id := .init ⟨_, _, _, rfl⟩
  refine ⟨?_, ?_, ?_⟩
  · have hrun : (mem₀.sendsAlong id [.enableTxsAvailable, .checkTx [0] none,
        .response (.checkTx ok), .checkTx [1] none, .response (.checkTx ok)] >>= fun p =>
          pure p.1) = .ok 1 := by
      decide +kernel
    obtain ⟨⟨n, mem''⟩, h, -⟩ := Result.bind_eq_ok.mp hrun
    exact ⟨n, mem'', h, hthm.1 mem₀ mem'' _ _ n h₀ (by decide) h⟩
  · -- the first response sends into the empty channel
    have hrun : (mem₀.call id .enableTxsAvailable >>= fun m₁ => m₁.call id (.checkTx [0] none) >>=
        fun m₂ => m₂.call id (.response (.checkTx ok)) >>= fun m₃ => pure (decide (Sends m₂ m₃))) =
        .ok true := by
      decide +kernel
    obtain ⟨m₁, h₁, hrun⟩ := Result.bind_eq_ok.mp hrun
    obtain ⟨m₂, h₂, hrun⟩ := Result.bind_eq_ok.mp hrun
    obtain ⟨m₃, h₃, hrun⟩ := Result.bind_eq_ok.mp hrun
    have hs : Sends m₂ m₃ := of_decide_eq_true (Result.ok.inj hrun)
    have hr : m₂.Reachable id := .step (.step h₀ ⟨_, h₁⟩) ⟨_, h₂⟩
    exact ⟨m₂, m₃, hr, h₃, hs, hthm.2.1 m₂ m₃ _ hr h₃ hs⟩
  · obtain ⟨mem, mem', hr, hidle, -, -, -, hU, hlen⟩ := reachable_listed_update
    exact ⟨mem, mem', hr, hidle, hU, hlen.symm,
      hthm.2.2 mem mem' 1 [[0]] none none [ok] hr hidle hU hlen.symm⟩

/-- `EnableTxsAvailable`, then one transaction checked and accepted: its response sends a value
into the channel, and nobody takes it. -/
def fullChannelRun : List Call :=
  [.enableTxsAvailable, .checkTx [0] none, .response (.checkTx ⟨CodeTypeOK, 0⟩)]

/-- After `fullChannelRun` the one value sent is still in the channel. An `Update` that commits
nothing, without recheck, then leaves `[0]` in the mempool with no request pending, and the run
still counts one send: `Update` cleared the flag and notified, but the select dropped the send
into the full channel, and the flag it set stops every later send until the next `Update`. -/
theorem txsAvailable_not_resent :
    ((NewStorage ⟨10, 100, 1, false⟩ 0 []).sendsAlong id fullChannelRun >>= fun p =>
        pure (p.1, p.2.txsAvailable)) = .ok (1, some true) ∧
      ((NewStorage ⟨10, 100, 1, false⟩ 0 []).sendsAlong id
          (fullChannelRun ++ [.update 1 [] none none]) >>= fun p =>
        pure (p.1, p.2.Size, p.2.notifiedTxsAvailable, p.2.proxyAppConn, p.2.recheckCursor,
          p.2.rechecking)) = .ok (1, 1, true, [], none, 0) := by
  simp [sendsAlong, Sends, fullChannelRun, call, NewStorage, EnableTxsAvailable, CheckTxWithInfo,
    Size, TxsBytes, CList.Len, CList.New, txCache.Push, mapTxCache.Push, mapTxCache.newMapTxCache,
    GoList.New, GoList.Len, GoList.PushBack, didRecvResponse, reqResCb, resCbFirstTime, globalCb,
    addTx, CList.PushBack, notifyTxsAvailable, postCheckErr, wrap64, maxTxSize, CodeTypeOK,
    MaxLength, maxInt64, Update, removeTxs, removeTxsBody, CList.forEach, CList.Front, CList.Value,
    CList.Next, CList.elem]

end Storage

end Dgrid.Blockchain
