import Mathlib.Data.Finset.Card
import Dgrid.Go.Basic
import Dgrid.Lib.Transition

/-! The ids of `core/blockchain/storage/reactor.go`: the mempool reactor gives each peer a
`uint16` so that a transaction is not gossiped back to the peer it came from. `nextID` wraps
around through `0`, which stays reserved for transactions without a peer, and the search skips
the ids in use. Peers are values of a type `ι` standing for `p2p.ID`. -/

namespace Dgrid.Blockchain
open Go

def UnknownPeerID : UInt16 := 0

def maxActiveIDs : Nat := 65535

/-- `storageIDs`. -/
structure storageIDs (ι : Type) where
  peerMap : ι → Option UInt16
  nextID : UInt16
  activeIDs : Finset UInt16

namespace storageIDs

variable {ι : Type} [DecidableEq ι]

/-- `newStorageIDs()`: `0` is reserved for `UnknownPeerID`. -/
def newStorageIDs : storageIDs ι := ⟨fun _ => none, 1, {UnknownPeerID}⟩

/-- The loop of `nextPeerID`: the first id from `id` on, wrapping around, that is not active.
There are `65536` ids, so the loop runs at most that often; `none` is a loop that never ends. -/
def searchLoop (activeIDs : Finset UInt16) : Nat → UInt16 → Option UInt16
  | 0, _ => none
  | fuel + 1, id => if id ∈ activeIDs then searchLoop activeIDs fuel (id + 1) else some id

def nextPeerID (ids : storageIDs ι) : Result (UInt16 × storageIDs ι) :=
  if ids.activeIDs.card = maxActiveIDs then
    .panic "node has maximum 65535 active IDs and wanted to get one more"
  else match searchLoop ids.activeIDs 65536 ids.nextID with
    | some curID => .ok (curID, { ids with nextID := curID + 1 })
    | none => .panic "the search for an unused id never ends"

def ReserveForPeer (ids : storageIDs ι) (peer : ι) : Result (storageIDs ι) := do
  let (curID, ids) ← ids.nextPeerID
  pure { ids with peerMap := Function.update ids.peerMap peer (some curID),
                  activeIDs := insert curID ids.activeIDs }

def Reclaim (ids : storageIDs ι) (peer : ι) : storageIDs ι :=
  match ids.peerMap peer with
  | some removedID => { ids with activeIDs := ids.activeIDs.erase removedID,
                                 peerMap := Function.update ids.peerMap peer none }
  | none => ids

def GetForPeer (ids : storageIDs ι) (peer : ι) : UInt16 := (ids.peerMap peer).getD 0

/-! ### The search for an unused id -/

theorem searchLoop_not_mem {activeIDs : Finset UInt16} :
    ∀ {fuel : Nat} {id curID : UInt16}, searchLoop activeIDs fuel id = some curID →
      curID ∉ activeIDs
  | 0, _, _, h => by cases h
  | fuel + 1, id, curID, h => by
      unfold searchLoop at h
      split_ifs at h with hid
      · exact searchLoop_not_mem h
      · cases h
        exact hid

theorem searchLoop_isSome {activeIDs : Finset UInt16} :
    ∀ {fuel j : Nat} {id : UInt16}, j < fuel → id + UInt16.ofNat j ∉ activeIDs →
      (searchLoop activeIDs fuel id).isSome
  | 0, _, _, hj, _ => absurd hj (Nat.not_lt_zero _)
  | fuel + 1, j, id, hj, hfree => by
      unfold searchLoop
      split_ifs with hid
      · -- `id` is taken, so the free id is one further along
        cases j with
        | zero => simp at hfree; exact absurd hid hfree
        | succ j =>
            refine searchLoop_isSome (j := j) (by omega) ?_
            have : id + 1 + UInt16.ofNat j = id + UInt16.ofNat (j + 1) := by
              rw [add_assoc]
              congr 1
              apply UInt16.toNat_inj.mp
              simp [UInt16.toNat_add, UInt16.toNat_ofNat]
              omega
            rwa [this]
      · rfl

theorem exists_not_mem {activeIDs : Finset UInt16} (h : activeIDs.card < 65536) :
    ∃ x, x ∉ activeIDs := by
  by_contra hall
  simp only [not_exists, not_not] at hall
  have hsub : Finset.range 65536 ⊆ activeIDs.image UInt16.toNat := fun n hn =>
    Finset.mem_image.mpr ⟨UInt16.ofNat n, hall _, by simp at hn ⊢; omega⟩
  have := (Finset.card_le_card hsub).trans Finset.card_image_le
  rw [Finset.card_range] at this
  omega

omit [DecidableEq ι] in
theorem nextPeerID_ok {ids : storageIDs ι} (h : ids.activeIDs.card < maxActiveIDs) :
    ∃ curID, curID ∉ ids.activeIDs ∧ ids.nextPeerID = .ok (curID, { ids with nextID := curID + 1 }) := by
  obtain ⟨x, hx⟩ := exists_not_mem (show ids.activeIDs.card < 65536 by unfold maxActiveIDs at h; omega)
  have hfree : ids.nextID + UInt16.ofNat (x - ids.nextID).toNat ∉ ids.activeIDs := by
    rwa [UInt16.ofNat_toNat, add_sub_cancel]
  obtain ⟨curID, hcur⟩ := Option.isSome_iff_exists.mp
    (searchLoop_isSome (UInt16.toNat_lt _) hfree)
  refine ⟨curID, searchLoop_not_mem hcur, ?_⟩
  simp [nextPeerID, hcur, show ids.activeIDs.card ≠ maxActiveIDs by omega]

omit [DecidableEq ι] in
theorem nextPeerID_spec {ids ids' : storageIDs ι} {curID : UInt16}
    (h : ids.nextPeerID = .ok (curID, ids')) :
    curID ∉ ids.activeIDs ∧ ids' = { ids with nextID := curID + 1 } := by
  unfold nextPeerID at h
  split_ifs at h
  split at h
  · rename_i hcur
    cases h
    exact ⟨searchLoop_not_mem hcur, rfl⟩
  · cases h

/-! ### Runs -/

/-- What the ids keep: `activeIDs` holds `0` and the ids of the peers, no two peers share an
id, and no peer has `0`. -/
structure Inv (ids : storageIDs ι) : Prop where
  active : ∀ x, x ∈ ids.activeIDs ↔ x = UnknownPeerID ∨ ∃ p, ids.peerMap p = some x
  unique : ∀ p q x, ids.peerMap p = some x → ids.peerMap q = some x → p = q
  nonzero : ∀ p, ids.peerMap p ≠ some UnknownPeerID

variable {ids ids' : storageIDs ι} {peer : ι}

omit [DecidableEq ι] in
theorem newStorageIDs_inv : (newStorageIDs : storageIDs ι).Inv where
  active := by simp [newStorageIDs]
  unique := by simp [newStorageIDs]
  nonzero := by simp [newStorageIDs]

theorem ReserveForPeer_inv (hi : ids.Inv) (hp : ids.peerMap peer = none)
    (h : ids.ReserveForPeer peer = .ok ids') : ids'.Inv := by
  obtain ⟨⟨curID, ids₁⟩, hn, h⟩ := Result.bind_eq_ok.mp h
  obtain ⟨hfree, rfl⟩ := nextPeerID_spec hn
  cases h
  -- the new id was not in use, so it is not `0` and no other peer holds it
  have hz : curID ≠ UnknownPeerID := fun hz => hfree ((hi.active _).mpr (.inl hz))
  have hother : ∀ q, ids.peerMap q ≠ some curID := fun q hq => hfree ((hi.active _).mpr (.inr ⟨q, hq⟩))
  refine ⟨fun x => ?_, fun p q x hpx hqx => ?_, fun p => ?_⟩
  · simp only [Finset.mem_insert, hi.active, Function.update_apply]
    constructor
    · rintro (rfl | rfl | ⟨q, hq⟩)
      · exact .inr ⟨peer, by simp⟩
      · exact .inl rfl
      · refine .inr ⟨q, ?_⟩
        rwa [if_neg (fun hqp => by simp [hqp, hp] at hq)]
    · rintro (rfl | ⟨q, hq⟩)
      · exact .inr (.inl rfl)
      · split_ifs at hq
        · exact .inl (Option.some.inj hq).symm
        · exact .inr (.inr ⟨q, hq⟩)
  · simp only [Function.update_apply] at hpx hqx
    split_ifs at hpx hqx with hp' hq' hq'
    · exact hp'.trans hq'.symm
    · exact absurd (Option.some.inj hpx ▸ hqx) (hother q)
    · exact absurd (Option.some.inj hqx ▸ hpx) (hother p)
    · exact hi.unique p q x hpx hqx
  · simp only [Function.update_apply]
    split_ifs
    · exact fun h => hz (Option.some.inj h)
    · exact hi.nonzero p

theorem Reclaim_inv (hi : ids.Inv) : (ids.Reclaim peer).Inv := by
  unfold Reclaim
  split
  · rename_i r hr
    have hr0 : r ≠ UnknownPeerID := fun h => hi.nonzero peer (h ▸ hr)
    refine ⟨fun x => ?_, fun p q x hpx hqx => ?_, fun p => ?_⟩
    · simp only [Finset.mem_erase, hi.active, Function.update_apply]
      constructor
      · rintro ⟨hxr, rfl | ⟨q, hq⟩⟩
        · exact .inl rfl
        · -- the peer that held `x` is not the one reclaimed
          have hqp : q ≠ peer := by
            rintro rfl
            exact hxr (Option.some.inj (hq.symm.trans hr))
          exact .inr ⟨q, by rwa [if_neg hqp]⟩
      · rintro (rfl | ⟨q, hq⟩)
        · exact ⟨hr0.symm, .inl rfl⟩
        · split_ifs at hq with hqp
          have hxr : x ≠ r := fun hxr => hqp (hi.unique q peer x hq (hxr ▸ hr))
          exact ⟨hxr, .inr ⟨q, hq⟩⟩
    · simp only [Function.update_apply] at hpx hqx
      split_ifs at hpx hqx
      exact hi.unique p q x hpx hqx
    · simp only [Function.update_apply]
      split_ifs
      · simp
      · exact hi.nonzero p
  · exact hi

/-- The calls: `ReserveForPeer` for a peer that holds no id, and `Reclaim`. -/
inductive Step : storageIDs ι → storageIDs ι → Prop
  | reserve {ids ids' : storageIDs ι} (peer : ι) :
      ids.peerMap peer = none → ids.ReserveForPeer peer = .ok ids' → Step ids ids'
  | reclaim (ids : storageIDs ι) (peer : ι) : Step ids (ids.Reclaim peer)

/-- The ids that calls reach from `newStorageIDs()`. -/
def Reachable (ids : storageIDs ι) : Prop := Transition.Reachable (· = newStorageIDs) Step ids

theorem Step.inv (hi : ids.Inv) : Step ids ids' → ids'.Inv
  | .reserve _ hp h => ReserveForPeer_inv hi hp h
  | .reclaim _ _ => Reclaim_inv hi

/-- Along every run, `activeIDs` is `0` and the ids of the peers, no two peers share an id, no
peer has `0`, and with fewer than `maxActiveIDs` ids in use `nextPeerID` ends with an id that is
neither `0` nor in use. -/
theorem reachable_ids (h : ids.Reachable) :
    (∀ x, x ∈ ids.activeIDs ↔ x = UnknownPeerID ∨ ∃ p, ids.peerMap p = some x) ∧
      (∀ p q x, ids.peerMap p = some x → ids.peerMap q = some x → p = q) ∧
      (∀ p, ids.peerMap p ≠ some UnknownPeerID) ∧
      (ids.activeIDs.card < maxActiveIDs → ∃ curID, curID ≠ UnknownPeerID ∧
        curID ∉ ids.activeIDs ∧ ids.nextPeerID = .ok (curID, { ids with nextID := curID + 1 })) := by
  have hi : ids.Inv := Transition.Reachable.invariant (by rintro _ rfl; exact newStorageIDs_inv)
    (fun _ _ _ hi hs => hs.inv hi) h
  refine ⟨hi.active, hi.unique, hi.nonzero, fun hcard => ?_⟩
  obtain ⟨curID, hfree, hn⟩ := nextPeerID_ok hcard
  exact ⟨curID, fun hz => hfree ((hi.active _).mpr (.inl hz)), hfree, hn⟩

/-- Ids reserved for two peers, then the first one's reclaimed. -/
theorem reachable_ids_reclaimed :
    ∃ ids : storageIDs String, ids.Reachable ∧ ids.peerMap "a" = none ∧ ids.peerMap "b" = some 2 ∧
      (∀ x, x ∈ ids.activeIDs ↔ x = UnknownPeerID ∨ ∃ p, ids.peerMap p = some x) ∧
      (∀ p q x, ids.peerMap p = some x → ids.peerMap q = some x → p = q) ∧
      (∀ p, ids.peerMap p ≠ some UnknownPeerID) ∧
      (ids.activeIDs.card < maxActiveIDs → ∃ curID, curID ≠ UnknownPeerID ∧
        curID ∉ ids.activeIDs ∧ ids.nextPeerID = .ok (curID, { ids with nextID := curID + 1 })) := by
  have hrun : ((newStorageIDs : storageIDs String).ReserveForPeer "a" >>= fun i₁ =>
      i₁.ReserveForPeer "b" >>= fun i₂ =>
        pure (i₁.peerMap "b", (i₂.Reclaim "a").peerMap "a", (i₂.Reclaim "a").peerMap "b")) =
      .ok (none, none, some 2) := by
    decide +kernel
  obtain ⟨i₁, h₁, hrun⟩ := Result.bind_eq_ok.mp hrun
  obtain ⟨i₂, h₂, hrun⟩ := Result.bind_eq_ok.mp hrun
  simp only [Result.pure_eq, Result.ok.injEq, Prod.mk.injEq] at hrun
  obtain ⟨hb, ha, hb'⟩ := hrun
  have hr : (i₂.Reclaim "a").Reachable :=
    .step (.step (.step (.init rfl) (.reserve "a" rfl h₁)) (.reserve "b" hb h₂)) (.reclaim i₂ "a")
  exact ⟨_, hr, ha, hb', reachable_ids hr⟩

end storageIDs

end Dgrid.Blockchain
