import Dgrid.Blockchain.StorageSpec

/-! `Update` and the recheck that follows it. `removeTxs` keeps the listed transactions that are
not committed, in order. The recheck then walks a cursor from the front to the element that was
last when it started, one response at a time: a rejected element is dropped, and the cursor moves
on through the `next` pointer that the dropped element keeps. So the responses stay aligned with
the elements, and the recheck ends with the cursor `nil` once every response has come. -/

namespace Dgrid.Blockchain
open Go Dgrid.Clist LinkedList

/-- The items `xs` that the verdicts `rs`, given in order, keep: an item stays when `accepts` its
verdict, and the items past the last verdict stay. -/
def keptByRecheck {α β : Type} (accepts : α → β → Bool) : List α → List β → List α
  | x :: xs, r :: rs => if accepts x r then x :: keptByRecheck accepts xs rs
      else keptByRecheck accepts xs rs
  | xs, [] => xs
  | [], _ :: _ => []

/-- The items `xs` that the verdicts `rs`, given in order, reject. -/
def rejectedByRecheck {α β : Type} (accepts : α → β → Bool) : List α → List β → List α
  | x :: xs, r :: rs => if accepts x r then rejectedByRecheck accepts xs rs
      else x :: rejectedByRecheck accepts xs rs
  | _, _ => []

@[simp] theorem keptByRecheck_nil_right {α β : Type} (accepts : α → β → Bool) (xs : List α) :
    keptByRecheck accepts xs [] = xs := by
  cases xs <;> rfl

@[simp] theorem rejectedByRecheck_nil_right {α β : Type} (accepts : α → β → Bool) (xs : List α) :
    rejectedByRecheck accepts xs [] = [] := by
  cases xs <;> rfl

variable {κ : Type} [DecidableEq κ] {txKey : Bytes → κ}

namespace Storage

/-- `mem'` differs from `mem` in the list, the map and the byte count only. -/
def BookOnly (mem mem' : Storage κ) : Prop :=
  { mem' with txs := mem.txs, txsMap := mem.txsMap, txsBytes := mem.txsBytes } = mem

/-- No request is waiting for its response and no recheck is running: the state `Update` is
called in, after `FlushAppConn`. -/
structure Idle (mem : Storage κ) : Prop where
  proxyAppConn : mem.proxyAppConn = []
  recheckCursor : mem.recheckCursor = none
  rechecking : mem.rechecking = 0

variable {mem mem' mem'' : Storage κ}

omit [DecidableEq κ] in
theorem BookOnly.refl : BookOnly mem mem := rfl

omit [DecidableEq κ] in
theorem BookOnly.trans (h : BookOnly mem mem') (h' : BookOnly mem' mem'') : BookOnly mem mem'' :=
  calc { mem'' with txs := mem.txs, txsMap := mem.txsMap, txsBytes := mem.txsBytes }
      = { { mem'' with txs := mem'.txs, txsMap := mem'.txsMap, txsBytes := mem'.txsBytes } with
          txs := mem.txs, txsMap := mem.txsMap, txsBytes := mem.txsBytes } := rfl
    _ = mem := by rw [h']; exact h

/-! ### `removeTxs` -/

/-- The elements `removeTxs txs` keeps: those whose transaction is not among `txs`. -/
def keepsUncommitted (txs : List Bytes) (v : Nat → Option storageTx) (e : Nat) : Bool :=
  (v e).any fun memTx => decide (memTx.tx ∉ txs)

theorem removeTxs_fold {txs : List Bytes} {v : Nat → Option storageTx} :
    ∀ (xs pre : List Nat) (left left' : List Bytes) (m m' : Storage κ), m.Inv txKey →
      m.txs.live = pre ++ xs → m.txs.valueOf = v →
      xs.foldlM (fun s e => removeTxsBody txKey txs e s) (left, m) = .ok (left', m') →
      m'.Inv txKey ∧ m'.txs.live = pre ++ xs.filter (keepsUncommitted txs v) ∧
        m'.txs.valueOf = v ∧ BookOnly m m' ∧
        left' = left ++ ((xs.filter (keepsUncommitted txs v)).filterMap v).map storageTx.tx := by
  intro xs
  induction xs with
  | nil =>
      intro pre left left' m m' hi hlive hv h
      cases h
      exact ⟨hi, by simpa using hlive, hv, BookOnly.refl, by simp⟩
  | cons e zs ih =>
      intro pre left left' m m' hi hlive hv h
      simp only [List.foldlM_cons] at h
      obtain ⟨⟨left₁, m₁⟩, h₁, hfold⟩ := Result.bind_eq_ok.mp h
      have he : e ∈ m.txs.live := by simp [hlive]
      obtain ⟨memTx, hvx, hcase⟩ := removeTxsBody_cases h₁
      have hve : v e = some memTx := hv ▸ hvx
      rcases hcase with ⟨hin, hr, rfl⟩ | ⟨hin, rfl, rfl⟩
      · -- a committed transaction: its element is dropped
        obtain ⟨⟨w, l₁, hR, hD⟩, -, -⟩ := removeTx_spec hr
        obtain ⟨-, hdrop⟩ := CList.Dropped.of_eq hi.txs he hR hD
        have hpre : e ∉ pre := fun hp =>
          List.disjoint_of_nodup_append (hlive ▸ CList.live_nodup m.txs) hp List.mem_cons_self
        obtain ⟨hi', hlive', hv', hbook, hleft⟩ := ih pre left₁ left' m₁ m' (removeTx_inv hi hvx rfl hr)
          (by rw [hdrop.live, hlive, List.erase_append_right _ hpre, List.erase_cons_head])
          (hdrop.valueOf.trans hv) hfold
        have hkeep : keepsUncommitted txs v e = false := by simp [keepsUncommitted, hve, hin]
        refine ⟨hi', by rwa [List.filter_cons_of_neg (by simp [hkeep])], hv', ?_,
          by rwa [List.filter_cons_of_neg (by simp [hkeep])]⟩
        have hrest := removeTx_rest hr
        rw [if_neg Bool.false_ne_true] at hrest
        exact BookOnly.trans hrest hbook
      · -- an uncommitted one stays, and is noted as left
        obtain ⟨hi', hlive', hv', hbook, hleft⟩ := ih (pre ++ [e]) (left ++ [memTx.tx]) left' m₁ m'
          hi (by simp [hlive]) hv hfold
        have hkeep : keepsUncommitted txs v e = true := by simp [keepsUncommitted, hve, hin]
        refine ⟨hi', by simpa [List.filter_cons_of_pos hkeep] using hlive', hv', hbook, ?_⟩
        rw [hleft, List.filter_cons_of_pos hkeep, List.filterMap_cons_some hve]
        simp

/-! ### One recheck response -/

/-- Whether `resCbRecheck` keeps the transaction `tx` on the response `r`: the application
accepted it, and the post-check, if any, passes it. -/
def recheckAccepts (mem : Storage κ) (tx : Bytes) (r : ResponseCheckTx) : Bool :=
  decide (r.Code = CodeTypeOK ∧ mem.postCheckErr tx r = none)

omit [DecidableEq κ] in
theorem some_eq_getLast?_iff {e : Nat} {zs : List Nat} (hnd : (e :: zs).Nodup) :
    some e = (e :: zs).getLast? ↔ zs = [] := by
  cases zs with
  | nil => simp
  | cons z zs =>
      refine ⟨fun h => ?_, fun h => nomatch h⟩
      rw [List.getLast?_cons_cons] at h
      exact absurd (List.mem_of_getLast? h.symm) (List.nodup_cons.mp hnd).1

omit [DecidableEq κ] in
theorem moveCursor_eq {l : CList storageTx} {e : Nat} {zs : List Nat} (hnd : (e :: zs).Nodup)
    (hnext : l.Next e = .ok zs.head?) :
    (if some e = (e :: zs).getLast? then (pure none : Result (Option Nat)) else l.Next e) =
      .ok zs.head? := by
  split_ifs with h
  · rw [(some_eq_getLast?_iff hnd).mp h]
    rfl
  · exact hnext

variable {e : Nat} {zs : List Nat} {memTx : storageTx} {rest : List Request} {r : ResponseCheckTx}

variable (memTx) in
/-- The verdict `b` on the element `e` under the cursor, `e :: zs` being the elements still to be
rechecked: the element stays, or `removeTx` drops it, from the cache too. Either way its `next`
pointer leads to the first of `zs`. -/
theorem recheck_verdict (b : Bool) (hi : mem.Inv txKey) (hsuf : e :: zs <:+ mem.txs.live) :
    ∃ mem₁ : Storage κ,
      (if b then mem₁ = mem else mem.removeTx txKey memTx.tx e true = .ok mem₁) ∧
      mem₁.txs.Next e = .ok zs.head? ∧ mem₁.recheckCursor = mem.recheckCursor ∧
      mem₁.recheckEnd = mem.recheckEnd := by
  have he : e ∈ mem.txs.live := hsuf.subset List.mem_cons_self
  cases b with
  | true => exact ⟨mem, rfl, CList.Next_of_suffix hi.txs hsuf, rfl, rfl⟩
  | false =>
      obtain ⟨mem₁, h₁⟩ : ∃ mem₁, mem.removeTx txKey memTx.tx e true = .ok mem₁ :=
        removeTx_ok true hi.txs he
      obtain ⟨⟨w, l₁, hR, hD⟩, -, -⟩ := removeTx_spec h₁
      obtain ⟨-, hdrop⟩ := CList.Dropped.of_eq hi.txs he hR hD
      have hrest := congrArg (fun m : Storage κ => (m.recheckCursor, m.recheckEnd)) (removeTx_rest h₁)
      simp only [Prod.mk.injEq] at hrest
      refine ⟨mem₁, h₁, ?_, hrest.1, hrest.2⟩
      rw [CList.Next_eq (hdrop.length ▸ CList.lt_of_mem_live he), hdrop.nextOf,
        CList.nextOf_of_suffix hi.txs hsuf]

/-- One response to a recheck, with the cursor at `e` and `e :: zs` still to be rechecked: after
the verdict the cursor moves to the first of `zs`; after the last element the recheck is over, and
a mempool left non-empty is notified. -/
theorem didRecvResponse_recheck (hi : mem.Inv txKey) (hsuf : e :: zs <:+ mem.txs.live)
    (hv : mem.txs.valueOf e = some memTx) (hcur : mem.recheckCursor = some e)
    (hend : mem.recheckEnd = (e :: zs).getLast?)
    (hconn : mem.proxyAppConn = .recheckTx memTx.tx :: rest) :
    ∃ mem₁ : Storage κ,
      (if mem.recheckAccepts memTx.tx r then mem₁ = { mem with proxyAppConn := rest }
        else { mem with proxyAppConn := rest }.removeTx txKey memTx.tx e true = .ok mem₁) ∧
      mem.didRecvResponse txKey (.checkTx r) =
        if zs = [] then
          (if 0 < mem₁.Size then
            { mem₁ with recheckCursor := none, rechecking := 0 }.notifyTxsAvailable
          else .ok { mem₁ with recheckCursor := none, rechecking := 0 })
        else .ok { mem₁ with recheckCursor := zs.head? } := by
  have hnd : (e :: zs).Nodup := (CList.live_nodup _).sublist hsuf.sublist
  obtain ⟨w, hV, hw⟩ := CList.Value_of_mem_live (hsuf.subset List.mem_cons_self)
  obtain rfl : w = memTx := Option.some.inj (hw.symm.trans hv)
  set m₀ : Storage κ := { mem with proxyAppConn := rest } with hm₀
  obtain ⟨mem₁, hverdict, hnext, hcur₁, hend₁⟩ :=
    recheck_verdict w (mem.recheckAccepts w.tx r)
      (hi.of_sameBook ⟨rfl, rfl, rfl⟩ : m₀.Inv txKey) hsuf
  refine ⟨mem₁, hverdict, ?_⟩
  -- the request was a recheck, so the response goes to `resCbRecheck` only
  have hstep : mem.didRecvResponse txKey (.checkTx r) = m₀.resCbRecheck txKey w.tx (.checkTx r) := by
    simp only [didRecvResponse, hconn]
    rw [globalCb, if_neg (by simp [hcur])]
    rfl
  have hverdict' : (if r.Code = CodeTypeOK ∧ m₀.postCheckErr w.tx r = none then pure m₀
      else m₀.removeTx txKey w.tx e true) = .ok mem₁ := by
    have hacc : (r.Code = CodeTypeOK ∧ m₀.postCheckErr w.tx r = none) ↔
        mem.recheckAccepts w.tx r := by simp [recheckAccepts, hm₀, postCheckErr]
    by_cases h : mem.recheckAccepts w.tx r
    · rw [if_pos h] at hverdict
      rw [if_pos (hacc.mpr h), hverdict]
      rfl
    · rw [if_neg h] at hverdict
      rw [if_neg (mt hacc.mp h), hverdict]
  have hc : mem₁.recheckCursor = some e := hcur₁.trans hcur
  have hn : mem₁.recheckEnd = (e :: zs).getLast? := hend₁.trans hend
  have hcur₀ : m₀.recheckCursor = some e := hcur
  have hV₀ : m₀.txs.Value e = .ok w := hV
  rw [hstep, resCbRecheck]
  simp only [hcur₀, hV₀, Result.ok_bind, ne_eq, not_true_eq_false, if_false]
  rw [hverdict', Result.ok_bind, hc, hn, moveCursor_eq hnd hnext, Result.ok_bind]
  cases zs with
  | nil => rfl
  | cons z zs => simp

/-! ### The recheck walk -/

/-- The transactions of the elements `es`, in order. -/
def txsAt (mem : Storage κ) (es : List Nat) : List Bytes :=
  (es.filterMap mem.txs.valueOf).map storageTx.tx

omit [DecidableEq κ] in
theorem txsAt_cons (hv : mem.txs.valueOf e = some memTx) (es : List Nat) :
    mem.txsAt (e :: es) = memTx.tx :: mem.txsAt es := by
  simp [txsAt, hv]

variable (txKey) in
/-- A recheck under way: the elements `pre` are behind the cursor, and `todo` are still to be
rechecked, from the cursor to the end, each with its request waiting in order. -/
structure Rechecking (mem : Storage κ) (pre todo : List Nat) : Prop where
  inv : mem.Inv txKey
  live : mem.txs.live = pre ++ todo
  cursor : mem.recheckCursor = todo.head?
  recheckEnd : mem.recheckEnd = todo.getLast?
  proxyAppConn : mem.proxyAppConn = (mem.txsAt todo).map .recheckTx

theorem recheck_verdict_spec {pre : List Nat} {b : Bool} (hi : mem.Inv txKey)
    (hlive : mem.txs.live = pre ++ e :: zs) (hv : mem.txs.valueOf e = some memTx)
    (h : if b then mem' = mem else mem.removeTx txKey memTx.tx e true = .ok mem') :
    mem'.Inv txKey ∧ mem'.txs.live = pre ++ (if b then [e] else []) ++ zs ∧
      mem'.txs.valueOf = mem.txs.valueOf ∧
      { mem' with txs := mem.txs, txsMap := mem.txsMap, txsBytes := mem.txsBytes } =
        { mem with cache := if b then mem.cache else mem.cache.Remove txKey memTx.tx } := by
  cases b with
  | true =>
      cases h
      exact ⟨hi, by simpa using hlive, rfl, rfl⟩
  | false =>
      have he : e ∈ mem.txs.live := by simp [hlive]
      obtain ⟨⟨w, l₁, hR, hD⟩, -, -⟩ := removeTx_spec h
      obtain ⟨-, hdrop⟩ := CList.Dropped.of_eq hi.txs he hR hD
      have hpre : e ∉ pre := fun hp =>
        List.disjoint_of_nodup_append (hlive ▸ CList.live_nodup mem.txs) hp List.mem_cons_self
      refine ⟨removeTx_inv hi hv rfl h, ?_, hdrop.valueOf, by simpa using removeTx_rest h⟩
      rw [hdrop.live, hlive, List.erase_append_right _ hpre, List.erase_cons_head]
      simp


omit [DecidableEq κ] in
theorem txsAt_congr (h : mem'.txs.valueOf = mem.txs.valueOf) : mem'.txsAt = mem.txsAt := by
  funext es
  simp [txsAt, h]

omit [DecidableEq κ] in
theorem recheckAccepts_congr (h : mem'.postCheck = mem.postCheck) :
    mem'.recheckAccepts = mem.recheckAccepts := by
  funext tx r
  simp [recheckAccepts, postCheckErr, h]

omit [DecidableEq κ] in
theorem recheck_done (mem₁ : Storage κ) :
    (if 0 < mem₁.Size then { mem₁ with recheckCursor := none, rechecking := 0 }.notifyTxsAvailable
      else .ok { mem₁ with recheckCursor := none, rechecking := 0 }) =
      .ok (if 0 < mem₁.Size ∧ mem₁.txsAvailable.isSome ∧ !mem₁.notifiedTxsAvailable then
          { mem₁ with recheckCursor := none, rechecking := 0, notifiedTxsAvailable := true,
                      txsAvailable := some true }
        else { mem₁ with recheckCursor := none, rechecking := 0 }) := by
  by_cases h : 0 < mem₁.Size
  · have h₀ : ¬({ mem₁ with recheckCursor := none, rechecking := 0 } : Storage κ).Size = 0 :=
      (ne_of_lt h).symm
    rw [if_pos h, notifyTxsAvailable, if_neg h₀]
    split_ifs <;> simp_all
  · simp [h]

theorem recheck_response {pre : List Nat} (hw : Rechecking txKey mem pre (e :: zs))
    (hv : mem.txs.valueOf e = some memTx) :
    ∃ mem₁ : Storage κ, mem₁.Inv txKey ∧
      mem₁.txs.live = pre ++ (if mem.recheckAccepts memTx.tx r then [e] else []) ++ zs ∧
      mem₁.txs.valueOf = mem.txs.valueOf ∧
      mem₁.proxyAppConn = (mem.txsAt zs).map .recheckTx ∧
      mem₁.cache = (if mem.recheckAccepts memTx.tx r then mem.cache
        else mem.cache.Remove txKey memTx.tx) ∧
      mem₁.postCheck = mem.postCheck ∧ mem₁.recheckEnd = mem.recheckEnd ∧
      mem₁.notifiedTxsAvailable = mem.notifiedTxsAvailable ∧ mem₁.txsAvailable = mem.txsAvailable ∧
      mem.didRecvResponse txKey (.checkTx r) =
        if zs = [] then
          (if 0 < mem₁.Size then
            { mem₁ with recheckCursor := none, rechecking := 0 }.notifyTxsAvailable
          else .ok { mem₁ with recheckCursor := none, rechecking := 0 })
        else .ok { mem₁ with recheckCursor := zs.head? } := by
  have hsuf : e :: zs <:+ mem.txs.live := hw.live ▸ List.suffix_append pre _
  obtain ⟨mem₁, hverdict, hstep⟩ := didRecvResponse_recheck (r := r) hw.inv hsuf hv hw.cursor
    hw.recheckEnd (by rw [hw.proxyAppConn, txsAt_cons hv]; rfl)
  obtain ⟨hi₁, hlive₁, hval₁, hframe⟩ := recheck_verdict_spec
    (hw.inv.of_sameBook ⟨rfl, rfl, rfl⟩ :
      ({ mem with proxyAppConn := (mem.txsAt zs).map .recheckTx } : Storage κ).Inv txKey)
    hw.live hv hverdict
  -- the verdict changes the list and the cache only
  have hfields := congrArg (fun m : Storage κ => (m.proxyAppConn, m.cache, m.postCheck, m.recheckEnd,
    m.notifiedTxsAvailable, m.txsAvailable)) hframe
  simp only [Prod.mk.injEq] at hfields
  exact ⟨mem₁, hi₁, hlive₁, hval₁, hfields.1, hfields.2.1, hfields.2.2.1, hfields.2.2.2.1,
    hfields.2.2.2.2.1, hfields.2.2.2.2.2, hstep⟩


theorem recheck_step {pre : List Nat} (hw : Rechecking txKey mem pre (e :: zs))
    (hv : mem.txs.valueOf e = some memTx) (hzs : zs ≠ []) :
    ∃ mem₂ : Storage κ, mem.didRecvResponse txKey (.checkTx r) = .ok mem₂ ∧
      Rechecking txKey mem₂ (pre ++ if mem.recheckAccepts memTx.tx r then [e] else []) zs ∧
      mem₂.txs.valueOf = mem.txs.valueOf ∧ mem₂.postCheck = mem.postCheck ∧
      mem₂.cache = (if mem.recheckAccepts memTx.tx r then mem.cache
        else mem.cache.Remove txKey memTx.tx) ∧
      mem₂.notifiedTxsAvailable = mem.notifiedTxsAvailable ∧ mem₂.txsAvailable = mem.txsAvailable := by
  obtain ⟨mem₁, hi₁, hlive₁, hval₁, hconn, hcache, hpost, hend, hnot, hav, hstep⟩ :=
    recheck_response (r := r) hw hv
  rw [if_neg hzs] at hstep
  refine ⟨_, hstep, ⟨hi₁.of_sameBook ⟨rfl, rfl, rfl⟩, hlive₁, rfl, ?_, ?_⟩, hval₁, hpost, hcache,
    hnot, hav⟩
  · -- the end stays where `recheckTxs` put it
    obtain ⟨z, zs, rfl⟩ := List.exists_cons_of_ne_nil hzs
    show mem₁.recheckEnd = _
    rw [hend, hw.recheckEnd, List.getLast?_cons_cons]
  · show mem₁.proxyAppConn = (mem₁.txsAt zs).map Request.recheckTx
    rw [hconn, txsAt_congr hval₁]

omit [DecidableEq κ] in
theorem listedTxs_eq_txsAt : mem.listedTxs = mem.txsAt mem.txs.live := rfl

theorem recheck_last {pre : List Nat} (hw : Rechecking txKey mem pre [e])
    (hv : mem.txs.valueOf e = some memTx) :
    ∃ mem' : Storage κ, mem.didRecvResponse txKey (.checkTx r) = .ok mem' ∧ mem'.Inv txKey ∧
      mem'.listedTxs =
        mem.txsAt pre ++ (if mem.recheckAccepts memTx.tx r then [memTx.tx] else []) ∧
      mem'.cache = (if mem.recheckAccepts memTx.tx r then mem.cache
        else mem.cache.Remove txKey memTx.tx) ∧
      mem'.proxyAppConn = [] ∧ mem'.recheckCursor = none ∧ mem'.rechecking = 0 ∧
      (mem'.notifiedTxsAvailable, mem'.txsAvailable) =
        if 0 < mem'.Size ∧ mem.txsAvailable.isSome ∧ !mem.notifiedTxsAvailable then (true, some true)
        else (mem.notifiedTxsAvailable, mem.txsAvailable) := by
  obtain ⟨mem₁, hi₁, hlive₁, hval₁, hconn, hcache, -, -, hnot, hav, hstep⟩ :=
    recheck_response (r := r) hw hv
  rw [if_pos rfl, recheck_done] at hstep
  have hlisted : mem₁.listedTxs =
      mem.txsAt pre ++ (if mem.recheckAccepts memTx.tx r then [memTx.tx] else []) := by
    rw [listedTxs_eq_txsAt, hlive₁, txsAt_congr hval₁]
    split_ifs <;> simp [txsAt, hv]
  refine ⟨_, hstep, ?_⟩
  by_cases hc : 0 < mem₁.Size ∧ mem₁.txsAvailable.isSome ∧ !mem₁.notifiedTxsAvailable
  · rw [if_pos hc]
    refine ⟨hi₁.of_sameBook ⟨rfl, rfl, rfl⟩, hlisted, hcache, by simpa [txsAt] using hconn, rfl, rfl,
      ?_⟩
    show (true, some true) = if 0 < mem₁.Size ∧ _ then _ else _
    exact (if_pos (by rwa [← hav, ← hnot])).symm
  · rw [if_neg hc]
    refine ⟨hi₁.of_sameBook ⟨rfl, rfl, rfl⟩, hlisted, hcache, by simpa [txsAt] using hconn, rfl, rfl,
      ?_⟩
    show (mem₁.notifiedTxsAvailable, mem₁.txsAvailable) = if 0 < mem₁.Size ∧ _ then _ else _
    rw [hnot, hav]
    exact (if_neg (by rwa [← hav, ← hnot])).symm

/-- The whole recheck, from the cursor at the first of `todo` with `pre` behind it: the responses
`rs`, one for each request, keep the transactions they accept, in order, and drop the others,
from the cache too. After the last one no request is waiting, the cursor is `nil`, `rechecking` is
`0`, and a mempool left non-empty is notified. -/
theorem recheck_walk : ∀ (todo pre : List Nat) (rs : List ResponseCheckTx) (mem : Storage κ),
    Rechecking txKey mem pre todo → todo ≠ [] → rs.length = (mem.txsAt todo).length →
    ∃ mem' : Storage κ, rs.foldlM (fun m r => m.didRecvResponse txKey (.checkTx r)) mem = .ok mem' ∧
      mem'.Inv txKey ∧
      mem'.listedTxs = mem.txsAt pre ++ keptByRecheck mem.recheckAccepts (mem.txsAt todo) rs ∧
      mem'.cache = (rejectedByRecheck mem.recheckAccepts (mem.txsAt todo) rs).foldl
        (fun c tx => c.Remove txKey tx) mem.cache ∧
      mem'.proxyAppConn = [] ∧ mem'.recheckCursor = none ∧ mem'.rechecking = 0 ∧
      (mem'.notifiedTxsAvailable, mem'.txsAvailable) =
        if 0 < mem'.Size ∧ mem.txsAvailable.isSome ∧ !mem.notifiedTxsAvailable then (true, some true)
        else (mem.notifiedTxsAvailable, mem.txsAvailable)
  | [], _, _, _, _, h, _ => absurd rfl h
  | e :: zs, pre, rs, mem, hw, _, hlen => by
      obtain ⟨memTx, -, hv⟩ := CList.Value_of_mem_live (by simp [hw.live] : e ∈ mem.txs.live)
      rw [txsAt_cons hv] at hlen ⊢
      obtain ⟨r, rs, rfl⟩ := List.exists_cons_of_length_pos (by simp [hlen] : 0 < rs.length)
      by_cases hzs : zs = []
      · -- the last response ends the recheck
        subst hzs
        obtain rfl : rs = [] := List.eq_nil_of_length_eq_zero (by simpa [txsAt] using hlen)
        obtain ⟨mem', hstep, hi', hlisted, hcache, hrest⟩ := recheck_last (r := r) hw hv
        refine ⟨mem', by simp [hstep], hi', ?_, ?_, hrest⟩
        · rw [hlisted]
          split_ifs with hb <;> simp [keptByRecheck, hb, txsAt]
        · rw [hcache]
          split_ifs with hb <;> simp [rejectedByRecheck, hb, txsAt]
      · -- the recheck goes on from the next element
        obtain ⟨mem₂, hstep, hw₂, hval₂, hpost₂, hcache₂, hnot₂, hav₂⟩ :=
          recheck_step (r := r) hw hv hzs
        obtain ⟨mem', hrun, hi', hlisted, hcache, hrest⟩ :=
          recheck_walk zs _ rs mem₂ hw₂ hzs (by simpa [txsAt_congr hval₂] using hlen)
        rw [txsAt_congr hval₂, recheckAccepts_congr hpost₂] at hlisted hcache
        rw [hnot₂, hav₂] at hrest
        refine ⟨mem', by simp [hstep, hrun], hi', ?_, ?_, hrest⟩
        · rw [hlisted]
          by_cases hb : mem.recheckAccepts memTx.tx r <;> simp [keptByRecheck, hb, txsAt, hv]
        · rw [hcache, hcache₂]
          by_cases hb : mem.recheckAccepts memTx.tx r <;> simp [rejectedByRecheck, hb]

/-! ### `Update` -/

omit [DecidableEq κ] in
theorem txsAt_filter (txs : List Bytes) (xs : List Nat) :
    mem.txsAt (xs.filter (keepsUncommitted txs mem.txs.valueOf)) =
      (mem.txsAt xs).filter (· ∉ txs) := by
  induction xs with
  | nil => rfl
  | cons e xs ih =>
      cases hv : mem.txs.valueOf e with
      | none => simpa [keepsUncommitted, hv, txsAt] using ih
      | some v =>
          rw [txsAt_cons hv]
          by_cases hin : v.tx ∈ txs
          · simpa [keepsUncommitted, hv, hin] using ih
          · simpa [keepsUncommitted, hv, hin, txsAt_cons hv] using ih

theorem Update_spec {height : Int} {txs : List Bytes} {preCheck : Option (Bytes → Option String)}
    {postCheck : Option (Bytes → ResponseCheckTx → Option String)} (hi : mem.Inv txKey)
    (h : mem.Update txKey height txs preCheck postCheck = .ok mem') :
    ∃ mem₂ : Storage κ, mem₂.Inv txKey ∧ mem₂.listedTxs = mem.listedTxs.filter (· ∉ txs) ∧
      { mem₂ with txs := mem.txs, txsMap := mem.txsMap, txsBytes := mem.txsBytes,
                  cache := mem.cache } =
        { mem with height, notifiedTxsAvailable := false, preCheck := preCheck.or mem.preCheck,
                   postCheck := postCheck.or mem.postCheck } ∧
      (if mem₂.listedTxs ≠ [] then
        if mem₂.config.Recheck then pure (mem₂.recheckTxs mem₂.listedTxs) else mem₂.notifyTxsAvailable
      else pure mem₂) = .ok mem' := by
  obtain ⟨mem₁, h₁, h⟩ := Result.bind_eq_ok.mp h
  -- pushing the committed transactions to the cache changes only the cache
  have hcache₁ : { mem₁ with cache := mem.cache } =
      { mem with height, notifiedTxsAvailable := false, preCheck := preCheck.or mem.preCheck,
                 postCheck := postCheck.or mem.postCheck } := by
    refine Result.foldlM_invariant (P := fun m : Storage κ => { m with cache := mem.cache } =
      { mem with height, notifiedTxsAvailable := false, preCheck := preCheck.or mem.preCheck,
                 postCheck := postCheck.or mem.postCheck }) ?_ _ _ _ rfl h₁
    intro m tx m' hm hs
    obtain ⟨⟨_, cache⟩, -, hs⟩ := Result.bind_eq_ok.mp hs
    cases hs
    exact hm
  have hbook₁ := congrArg (fun m : Storage κ => (m.txs, m.txsMap, m.txsBytes)) hcache₁
  simp only [Prod.mk.injEq] at hbook₁
  obtain ⟨htxs, hmap, hbytes⟩ := hbook₁
  have hi₁ : mem₁.Inv txKey := hi.of_sameBook ⟨htxs, hmap, hbytes⟩
  obtain ⟨⟨left, mem₂⟩, h₂, h⟩ := Result.bind_eq_ok.mp h
  rw [removeTxs_eq_foldlM hi₁] at h₂
  obtain ⟨hi₂, hlive₂, hval₂, hbook, hleft⟩ :=
    removeTxs_fold _ [] [] left mem₁ mem₂ hi₁ (List.nil_append _).symm rfl h₂
  have hleft' : left = mem₂.listedTxs := by
    rw [hleft, listedTxs_eq_txsAt, hlive₂, List.nil_append, List.nil_append, txsAt_congr hval₂]
    rfl
  refine ⟨mem₂, hi₂, ?_, ?_, by rw [← hleft']; exact h⟩
  · rw [listedTxs_eq_txsAt, hlive₂, List.nil_append, txsAt_congr hval₂, txsAt_filter,
      txsAt_congr (show mem₁.txs.valueOf = mem.txs.valueOf by rw [htxs]), htxs, ← listedTxs_eq_txsAt]
  · calc { mem₂ with txs := mem.txs, txsMap := mem.txsMap, txsBytes := mem.txsBytes,
                     cache := mem.cache }
        = { mem₁ with txs := mem.txs, txsMap := mem.txsMap, txsBytes := mem.txsBytes,
                      cache := mem.cache } :=
          congrArg (fun m : Storage κ =>
            { m with txs := mem.txs, txsMap := mem.txsMap, txsBytes := mem.txsBytes,
                     cache := mem.cache }) hbook
      _ = { mem₁ with cache := mem.cache } := by rw [← htxs, ← hmap, ← hbytes]
      _ = _ := hcache₁

omit [DecidableEq κ] in
theorem Size_eq_length (hl : mem.txs.Inv) : mem.Size = mem.listedTxs.length := by
  rw [Size, CList.Len, hl.len, listedTxs, List.length_map, CList.length_values]

omit [DecidableEq κ] in
theorem notifyTxsAvailable_ok (h : mem.notifyTxsAvailable = .ok mem') :
    mem.Size ≠ 0 ∧ mem' = if mem.txsAvailable.isSome ∧ !mem.notifiedTxsAvailable then
      { mem with notifiedTxsAvailable := true, txsAvailable := some true } else mem := by
  unfold notifyTxsAvailable at h
  split_ifs at h with h₀ h₁ <;> cases h
  · exact ⟨h₀, by rw [if_pos h₁]⟩
  · exact ⟨h₀, by rw [if_neg h₁]⟩

/-- Where `Update` leaves an idle mempool: the committed transactions are gone, and either what is
left is being rechecked, the channel untouched, or the mempool is idle again, the channel filled
when the mempool is non-empty. -/
theorem Update_outcome {height : Int} {txs : List Bytes}
    {preCheck : Option (Bytes → Option String)}
    {postCheck : Option (Bytes → ResponseCheckTx → Option String)} (hi : mem.Inv txKey)
    (hidle : mem.Idle) (h : mem.Update txKey height txs preCheck postCheck = .ok mem') :
    mem'.Inv txKey ∧ mem'.listedTxs = mem.listedTxs.filter (· ∉ txs) ∧
      mem'.postCheck = postCheck.or mem.postCheck ∧
      ((mem'.Idle ∧ (mem'.notifiedTxsAvailable, mem'.txsAvailable) =
          if 0 < mem'.Size ∧ mem.txsAvailable.isSome then (true, some true)
          else (false, mem.txsAvailable)) ∨
        (Rechecking txKey mem' [] mem'.txs.live ∧ mem'.txs.live ≠ [] ∧
          mem'.notifiedTxsAvailable = false ∧ mem'.txsAvailable = mem.txsAvailable)) := by
  obtain ⟨mem₂, hi₂, hlisted₂, hframe, hU⟩ := Update_spec hi h
  have hf := congrArg (fun m : Storage κ => (m.postCheck, m.proxyAppConn, m.recheckCursor,
    m.rechecking, m.notifiedTxsAvailable, m.txsAvailable)) hframe
  simp only [Prod.mk.injEq] at hf
  obtain ⟨hpost, hconn, hcur, hrck, hnot, hav⟩ := hf
  have hidle₂ : mem₂.Idle := ⟨hconn.trans hidle.proxyAppConn, hcur.trans hidle.recheckCursor,
    hrck.trans hidle.rechecking⟩
  by_cases hleft : mem₂.listedTxs = []
  · -- nothing is left: no recheck, and no notification
    rw [if_neg (not_not.mpr hleft)] at hU
    cases hU
    have hsize : mem'.Size = 0 := by rw [Size_eq_length hi₂.txs, hleft]; rfl
    refine ⟨hi₂, hlisted₂, hpost, .inl ⟨hidle₂, ?_⟩⟩
    rw [if_neg (by simp [hsize]), hnot, hav]
  by_cases hre : mem₂.config.Recheck
  · -- what is left goes to the application, in the order of the list
    rw [if_pos hleft, if_pos hre] at hU
    cases hU
    have hlive : mem₂.txs.live ≠ [] := fun hnil => hleft (by rw [listedTxs_eq_txsAt, hnil]; rfl)
    rw [recheckTxs, if_neg hleft]
    refine ⟨hi₂.of_sameBook ⟨rfl, rfl, rfl⟩, hlisted₂, hpost, .inr ⟨⟨hi₂.of_sameBook ⟨rfl, rfl, rfl⟩,
      (List.nil_append _).symm, hi₂.txs.head, hi₂.txs.tail, ?_⟩, hlive, hnot, hav⟩⟩
    show mem₂.proxyAppConn ++ _ = _
    rw [hidle₂.proxyAppConn, List.nil_append, listedTxs_eq_txsAt]
    rfl
  · -- no recheck: the mempool is notified at once
    rw [if_pos hleft, if_neg hre] at hU
    obtain ⟨hsize, rfl⟩ := notifyTxsAvailable_ok hU
    have hpos : 0 < mem₂.Size := by
      rw [Size_eq_length hi₂.txs]
      exact_mod_cast List.length_pos_of_ne_nil hleft
    by_cases hc : mem.txsAvailable.isSome
    · rw [if_pos (by simp [hav, hnot, hc])]
      exact ⟨hi₂.of_sameBook ⟨rfl, rfl, rfl⟩, hlisted₂, hpost, .inl ⟨⟨hidle₂.1, hidle₂.2,
        hidle₂.3⟩, (if_pos ⟨hpos, hc⟩).symm⟩⟩
    · rw [if_neg (by simp [hav, hc])]
      refine ⟨hi₂, hlisted₂, hpost, .inl ⟨hidle₂, ?_⟩⟩
      rw [if_neg (by simp [hc]), hnot, hav]

/-- What `Update` queues for the application from an idle mempool: with `Recheck` on, one
`CheckTx` request of type `Recheck` per transaction left, in the order of the list; otherwise
nothing. -/
theorem Update_proxyAppConn {height : Int} {txs : List Bytes}
    {preCheck : Option (Bytes → Option String)}
    {postCheck : Option (Bytes → ResponseCheckTx → Option String)} (hi : mem.Inv txKey)
    (hidle : mem.Idle) (h : mem.Update txKey height txs preCheck postCheck = .ok mem') :
    mem'.proxyAppConn =
      if mem.config.Recheck then (mem.listedTxs.filter (· ∉ txs)).map .recheckTx else [] := by
  obtain ⟨mem₂, -, hlisted₂, hframe, hU⟩ := Update_spec hi h
  have hf := congrArg (fun m : Storage κ => (m.config, m.proxyAppConn)) hframe
  simp only [Prod.mk.injEq] at hf
  obtain ⟨hconfig, hconn⟩ := hf
  rw [← hconfig, ← hlisted₂]
  by_cases hleft : mem₂.listedTxs = []
  · rw [if_neg (not_not.mpr hleft)] at hU
    cases hU
    rw [hleft, hconn, hidle.proxyAppConn]
    simp
  by_cases hre : mem₂.config.Recheck
  · -- one request per transaction left, after the empty queue
    rw [if_pos hleft, if_pos hre] at hU
    cases hU
    rw [if_pos hre, recheckTxs, if_neg hleft]
    show mem₂.proxyAppConn ++ _ = _
    rw [hconn, hidle.proxyAppConn, List.nil_append]
  · rw [if_pos hleft, if_neg hre] at hU
    obtain ⟨-, rfl⟩ := notifyTxsAvailable_ok hU
    rw [if_neg hre]
    split_ifs <;> rw [hconn, hidle.proxyAppConn]

/-- `Update` from an idle mempool, then the application's responses `rs` to every request it
sent: the transactions left are those not committed and accepted again, in order, the rejected
ones leave the cache, the mempool is idle again, and the channel is filled if the mempool is
non-empty. -/
theorem Update_recheck_run {height : Int} {txs : List Bytes}
    {preCheck : Option (Bytes → Option String)}
    {postCheck : Option (Bytes → ResponseCheckTx → Option String)} (hi : mem.Inv txKey)
    (hidle : mem.Idle) (hU : mem.Update txKey height txs preCheck postCheck = .ok mem')
    (rs : List ResponseCheckTx) (hlen : rs.length = mem'.proxyAppConn.length) :
    ∃ mem'' : Storage κ,
      rs.foldlM (fun m r => m.didRecvResponse txKey (.checkTx r)) mem' = .ok mem'' ∧
      mem''.Inv txKey ∧ mem''.Idle ∧
      mem''.listedTxs = keptByRecheck mem'.recheckAccepts (mem.listedTxs.filter (· ∉ txs)) rs ∧
      mem''.cache = (rejectedByRecheck mem'.recheckAccepts (mem.listedTxs.filter (· ∉ txs)) rs).foldl
        (fun c tx => c.Remove txKey tx) mem'.cache ∧
      (mem''.notifiedTxsAvailable, mem''.txsAvailable) =
        if 0 < mem''.Size ∧ mem.txsAvailable.isSome then (true, some true)
        else (false, mem.txsAvailable) := by
  obtain ⟨hi', hlisted', -, hdone | hrecheck⟩ := Update_outcome hi hidle hU
  · -- no recheck: no request waits for a response
    obtain ⟨hidle', hchan⟩ := hdone
    obtain rfl : rs = [] := List.eq_nil_of_length_eq_zero (by rw [hlen, hidle'.proxyAppConn]; rfl)
    exact ⟨mem', rfl, hi', hidle', by simp [hlisted'], by simp, hchan⟩
  · obtain ⟨hw, hlive, hnot, hav⟩ := hrecheck
    obtain ⟨mem'', hrun, hi'', hlisted'', hcache'', hconn'', hcur'', hrck'', hchan⟩ :=
      recheck_walk _ [] rs mem' hw hlive (by rw [hlen, hw.proxyAppConn, List.length_map])
    rw [← listedTxs_eq_txsAt, hlisted'] at hlisted'' hcache''
    refine ⟨mem'', hrun, hi'', ⟨hconn'', hcur'', hrck''⟩, by simpa [txsAt] using hlisted'', hcache'',
      ?_⟩
    rw [hchan, hnot, hav]
    simp

set_option synthInstance.maxSize 256 in
/-- Two transactions checked and accepted with `EnableTxsAvailable` on and the value sent taken
from the channel, then `Update` at height 1 committing the first: the second is left, and its
recheck is queued. -/
theorem reachable_listed_update :
    ∃ mem mem' : Storage Bytes, mem.Reachable id ∧ mem.Idle ∧ mem.listedTxs = [[0], [1]] ∧
      mem.txsAvailable = some false ∧ mem.config.Recheck = true ∧
      mem.Update id 1 [[0]] none none = .ok mem' ∧ mem'.proxyAppConn.length = 1 := by
  let ok : Response := .checkTx ⟨CodeTypeOK, 0⟩
  have hrun : ((NewStorage ⟨10, 100, 2, true⟩ 0 [] : Storage Bytes).call id .enableTxsAvailable
      >>= fun m₁ => m₁.call id (.checkTx [0] none)
      >>= fun m₂ => m₂.call id (.response ok)
      >>= fun m₃ => m₃.call id (.checkTx [1] none)
      >>= fun m₄ => m₄.call id (.response ok)
      >>= fun m₅ => m₅.call id .recvTxsAvailable
      >>= fun m₆ => m₆.Update id 1 [[0]] none none
      >>= fun m₇ => pure ((m₆.proxyAppConn.length, m₆.recheckCursor.isNone, m₆.rechecking),
        (m₆.listedTxs, m₆.txsAvailable, m₆.config.Recheck), m₇.proxyAppConn.length)) =
      .ok ((0, true, 0), ([[0], [1]], some false, true), 1) := by
    decide +kernel
  obtain ⟨m₁, h₁, hrun⟩ := Result.bind_eq_ok.mp hrun
  obtain ⟨m₂, h₂, hrun⟩ := Result.bind_eq_ok.mp hrun
  obtain ⟨m₃, h₃, hrun⟩ := Result.bind_eq_ok.mp hrun
  obtain ⟨m₄, h₄, hrun⟩ := Result.bind_eq_ok.mp hrun
  obtain ⟨m₅, h₅, hrun⟩ := Result.bind_eq_ok.mp hrun
  obtain ⟨m₆, h₆, hrun⟩ := Result.bind_eq_ok.mp hrun
  obtain ⟨m₇, h₇, hrun⟩ := Result.bind_eq_ok.mp hrun
  simp only [Result.pure_eq, Result.ok.injEq, Prod.mk.injEq] at hrun
  obtain ⟨⟨hconn, hcur, hrck⟩, ⟨hlisted, hav, hre⟩, hlen⟩ := hrun
  have hr : m₆.Reachable id :=
    .step (.step (.step (.step (.step (.step (.init ⟨_, _, _, rfl⟩) ⟨_, h₁⟩) ⟨_, h₂⟩) ⟨_, h₃⟩)
      ⟨_, h₄⟩) ⟨_, h₅⟩) ⟨_, h₆⟩
  exact ⟨m₆, m₇, hr, ⟨List.eq_nil_of_length_eq_zero hconn, Option.isNone_iff_eq_none.mp hcur, hrck⟩,
    hlisted, hav, hre, h₇, hlen⟩

/-- `Update(height, txs, preCheck, postCheck)` on a mempool with no request waiting and no
recheck running, then the responses `rs` to every recheck request, in order: the list is the
one before with the committed transactions removed and those rejected by the application or the
post-check removed, in order; the rejected ones leave the cache; the byte count is the wrapped
total length of the transactions left; the cursor is `nil` and `rechecking` is `0`. -/
theorem Update_then_recheck (hr : mem.Reachable txKey) (hidle : mem.Idle) {height : Int}
    {txs : List Bytes} {preCheck : Option (Bytes → Option String)}
    {postCheck : Option (Bytes → ResponseCheckTx → Option String)}
    (hU : mem.Update txKey height txs preCheck postCheck = .ok mem') (rs : List ResponseCheckTx)
    (hlen : rs.length = mem'.proxyAppConn.length) :
    mem'.postCheck = postCheck.or mem.postCheck ∧
    mem'.proxyAppConn =
      (if mem.config.Recheck then (mem.listedTxs.filter (· ∉ txs)).map .recheckTx else []) ∧
    ∃ mem'' : Storage κ,
      rs.foldlM (fun m r => m.didRecvResponse txKey (.checkTx r)) mem' = .ok mem'' ∧
      mem''.listedTxs = keptByRecheck mem'.recheckAccepts (mem.listedTxs.filter (· ∉ txs)) rs ∧
      mem''.cache = (rejectedByRecheck mem'.recheckAccepts (mem.listedTxs.filter (· ∉ txs)) rs).foldl
        (fun c tx => c.Remove txKey tx) mem'.cache ∧
      mem''.TxsBytes = wrap64 ((mem''.listedTxs.map List.length).sum : Nat) ∧
      mem''.recheckCursor = none ∧ mem''.rechecking = 0 := by
  have hi := reachable_inv hr
  obtain ⟨mem'', hrun, hi'', hidle'', hlisted, hcache, -⟩ := Update_recheck_run hi hidle hU rs hlen
  exact ⟨(Update_outcome hi hidle hU).2.2.1, Update_proxyAppConn hi hidle hU, mem'', hrun, hlisted,
    hcache, hi''.txsBytes, hidle''.recheckCursor, hidle''.rechecking⟩

theorem Update_then_recheck_committed :
    ∃ mem mem' : Storage Bytes, mem.Reachable id ∧ mem.Idle ∧ mem.listedTxs = [[0], [1]] ∧
      mem.Update id 1 [[0]] none none = .ok mem' ∧
      [(⟨CodeTypeOK, 0⟩ : ResponseCheckTx)].length = mem'.proxyAppConn.length ∧
      mem'.postCheck = none.or mem.postCheck ∧
      mem'.proxyAppConn =
        (if mem.config.Recheck then (mem.listedTxs.filter (· ∉ [[0]])).map .recheckTx else []) ∧
      ∃ mem'' : Storage Bytes,
        [(⟨CodeTypeOK, 0⟩ : ResponseCheckTx)].foldlM
          (fun m r => m.didRecvResponse id (.checkTx r)) mem' = .ok mem'' ∧
        mem''.listedTxs = keptByRecheck mem'.recheckAccepts (mem.listedTxs.filter (· ∉ [[0]]))
          [⟨CodeTypeOK, 0⟩] ∧
        mem''.cache = (rejectedByRecheck mem'.recheckAccepts (mem.listedTxs.filter (· ∉ [[0]]))
          [⟨CodeTypeOK, 0⟩]).foldl (fun c tx => c.Remove id tx) mem'.cache ∧
        mem''.TxsBytes = wrap64 ((mem''.listedTxs.map List.length).sum : Nat) ∧
        mem''.recheckCursor = none ∧ mem''.rechecking = 0 := by
  obtain ⟨mem, mem', hr, hidle, hlisted, -, -, hU, hlen⟩ := reachable_listed_update
  exact ⟨mem, mem', hr, hidle, hlisted, hU, hlen.symm,
    Update_then_recheck hr hidle hU [⟨CodeTypeOK, 0⟩] hlen.symm⟩

end Storage

end Dgrid.Blockchain
