import Dgrid.P2p.ConnectionDelivery

/-! The loop of `FlushStop`, which calls `sendSomePacketMsgs` until the channels are exhausted.
With a positive payload size it ends, for any picker, within one round more than the packets
still to write (`pendingPackets`), each call of `sendPacketMsg` that writes lowering that number
by one. With a payload size of 0, which the p2p configuration accepts, a channel holding a
non-empty message writes empty packets that never end it, and the loop never ends. -/

namespace Dgrid.P2p.Conn

open Go Lossy Framing

/-- The packets `nextPacketMsg` cuts a message of `n` bytes into with payload size `maxSize`:
one for a message that fits, one for each `maxSize` bytes begun otherwise. -/
def packetCount (maxSize n : Nat) : Nat := if n ≤ maxSize then 1 else (n + maxSize - 1) / maxSize

/-- The packets a channel has still to write: the rest of the message it is sending, and each
message of its queue. -/
def Channel.pendingPackets (ch : Channel) : Nat :=
  (if ch.sending = [] then 0 else packetCount ch.maxPacketMsgPayloadSize ch.sending.length) +
    (ch.sendQueue.map fun m => packetCount ch.maxPacketMsgPayloadSize m.length).sum

/-- The packets the connection has still to write. -/
def MConnection.pendingPackets (c : MConnection) : Nat := (c.channels.map Channel.pendingPackets).sum

theorem packetCount_more {maxSize n : Nat} (h : 0 < maxSize) (hn : maxSize < n) :
    packetCount maxSize n = packetCount maxSize (n - maxSize) + 1 := by
  have hsplit : n + maxSize - 1 = (n - maxSize + maxSize - 1) + maxSize := by omega
  rw [packetCount, if_neg (by omega), hsplit, Nat.add_div_right _ h, packetCount]
  split_ifs with hle
  · -- the rest fits one packet
    have hone : (n - maxSize + maxSize - 1) / maxSize = 1 := Nat.div_eq_of_lt_le (by omega) (by omega)
    rw [hone]
  · rfl

namespace Channel

variable (ch : Channel)

theorem pendingPackets_isSendPending : ch.isSendPending.1.pendingPackets ≤ ch.pendingPackets := by
  rcases ch.isSendPending_cases with ⟨-, e⟩ | ⟨-, -, e⟩ | ⟨m, q, hs, hq, e⟩
  · rw [e]
  · rw [e]
  · simp only [e, Channel.pendingPackets, hs, hq, List.map_cons, List.sum_cons, if_true]
    split_ifs <;> omega

theorem pendingPackets_write (h : 0 < ch.maxPacketMsgPayloadSize) (hp : ch.isSendPending.2 = true) :
    ch.isSendPending.1.nextPacketMsg.1.pendingPackets + 1 = ch.pendingPackets := by
  obtain ⟨-, -, -, hmax⟩ := ch.isSendPending_frame
  set ch₁ := ch.isSendPending.1 with hch₁
  -- the packets of `ch`, counted from the message `ch₁` is sending, empty or not
  have hcount : ch.pendingPackets = packetCount ch₁.maxPacketMsgPayloadSize ch₁.sending.length +
      (ch₁.sendQueue.map fun m => packetCount ch₁.maxPacketMsgPayloadSize m.length).sum := by
    rcases ch.isSendPending_cases with ⟨hs, e⟩ | ⟨-, -, e⟩ | ⟨m, q, hs, hq, e⟩
    · simp [hch₁, e, Channel.pendingPackets, hs]
    · simp [e] at hp
    · simp [hch₁, e, Channel.pendingPackets, hs, hq]
  rw [hcount]
  have h₁ : 0 < ch₁.maxPacketMsgPayloadSize := hmax ▸ h
  rcases Nat.lt_or_ge ch₁.maxPacketMsgPayloadSize ch₁.sending.length with hl | hl
  · have hne : ch₁.sending.drop ch₁.maxPacketMsgPayloadSize ≠ [] := by
      simpa [List.drop_eq_nil_iff] using hl
    rw [ch₁.nextPacketMsg_more hl, packetCount_more h₁ hl]
    simp [Channel.pendingPackets, hne]
    omega
  · rw [ch₁.nextPacketMsg_eof hl]
    simp [Channel.pendingPackets, packetCount, hl]
    omega

/-- A channel holds a non-empty message: the rest of the one it is sending, or one of its queue. -/
def HoldsBytes (ch : Channel) : Prop := ∃ m ∈ ch.sending :: ch.sendQueue, m ≠ []

variable {ch}

theorem HoldsBytes.isSendPending (h : ch.HoldsBytes) :
    ch.isSendPending.1.HoldsBytes ∧ ch.isSendPending.2 = true := by
  obtain ⟨m, hm, hne⟩ := h
  rcases ch.isSendPending_cases with ⟨-, e⟩ | ⟨hs, hq, -⟩ | ⟨m', q, hs, hq, e⟩
  · rw [e]
    exact ⟨⟨m, hm, hne⟩, rfl⟩
  · simp [hs, hq] at hm
    exact absurd hm hne
  · rw [e]
    refine ⟨⟨m, ?_, hne⟩, rfl⟩
    simpa [hs, hq, hne] using hm

theorem HoldsBytes.nextPacketMsg (h0 : ch.maxPacketMsgPayloadSize = 0) (h : ch.HoldsBytes) :
    ch.nextPacketMsg.1.HoldsBytes := by
  rcases Nat.lt_or_ge ch.maxPacketMsgPayloadSize ch.sending.length with hl | hl
  · -- a non-empty message: the packet is empty and the message stays whole
    rw [ch.nextPacketMsg_more hl, h0]
    simpa [HoldsBytes] using h
  · -- an empty `sending`: the message held is in the queue, which stays
    have hs : ch.sending = [] := List.eq_nil_of_length_eq_zero (by omega)
    rw [ch.nextPacketMsg_eof hl]
    simpa [HoldsBytes, hs] using h

end Channel

section Measure

variable {α : Type} (μ : α → Nat) (f : α → α) (hf : ∀ x, μ (f x) ≤ μ x)
include hf

theorem sum_map_le (l : List α) : ((l.map f).map μ).sum ≤ (l.map μ).sum := by
  induction l with
  | nil => simp
  | cons x l ih =>
    simp only [List.map_cons, List.sum_cons]
    have := hf x
    omega

theorem sum_map_set_lt : ∀ (l : List α) (i : Nat) (a b : α), l[i]? = some a → μ b + 1 ≤ μ a →
    (((l.map f).set i b).map μ).sum + 1 ≤ (l.map μ).sum := by
  intro l
  induction l with
  | nil => simp
  | cons x l ih =>
    intro i a b hi hb
    cases i with
    | zero =>
      simp only [List.getElem?_cons_zero, Option.some.injEq] at hi
      subst hi
      have := sum_map_le μ f hf l
      simp only [List.map_cons, List.set_cons_zero, List.sum_cons]
      omega
    | succ i =>
      simp only [List.getElem?_cons_succ] at hi
      have := ih i a b hi hb
      simp only [List.map_cons, List.set_cons_succ, List.sum_cons]
      have := hf x
      omega

end Measure

namespace MConnection

variable (P : Picker)

/-- The channels of `c` and of `c'` have the same payload sizes. -/
def SamePayload (c c' : MConnection) : Prop :=
  c'.channels.map (·.maxPacketMsgPayloadSize) = c.channels.map (·.maxPacketMsgPayloadSize)

theorem SamePayload.trans {c₁ c₂ c₃ : MConnection} (h₁ : SamePayload c₁ c₂) (h₂ : SamePayload c₂ c₃) :
    SamePayload c₁ c₃ :=
  Eq.trans h₂ h₁

theorem SamePayload.pos {c c' : MConnection} (h : SamePayload c c')
    (hpos : ∀ ch ∈ c.channels, 0 < ch.maxPacketMsgPayloadSize) :
    ∀ ch ∈ c'.channels, 0 < ch.maxPacketMsgPayloadSize := by
  have hmap := List.forall_mem_map.mpr hpos
  rw [← h] at hmap
  exact List.forall_mem_map.mp hmap

section Round

variable (c : MConnection)

theorem sendPacketMsg_samePayload : SamePayload c (c.sendPacketMsg P).1 := by
  have hsweep : SamePayload c { c with channels := c.channels.map (·.isSendPending.1) } := by
    simp only [SamePayload, List.map_map]
    exact List.map_congr_left fun ch _ => ch.isSendPending_frame.2.2.2
  rcases sendPacketMsg_cases P c with ⟨e, -⟩ | ⟨i, ch, hi, -, e⟩
  · rwa [e]
  · rw [e]
    -- the channel written from keeps the payload size it had after the sweep
    have hlt : i < ((c.channels.map (·.isSendPending.1)).map (·.maxPacketMsgPayloadSize)).length := by
      simpa using (List.getElem?_eq_some_iff.mp hi).1
    have hget : ((c.channels.map (·.isSendPending.1)).map (·.maxPacketMsgPayloadSize))[i] =
        ch.isSendPending.1.nextPacketMsg.1.maxPacketMsgPayloadSize := by
      simp [(List.getElem?_eq_some_iff.mp hi).2, (ch.isSendPending.1.nextPacketMsg_frame).2.2.2.1]
    unfold SamePayload at hsweep ⊢
    dsimp only
    rw [List.map_set, ← hget, List.set_getElem_self]
    exact hsweep

theorem sendPacketMsg_written :
    (c.sendPacketMsg P).2.1.length = if (c.sendPacketMsg P).2.2 then 0 else 1 := by
  rcases sendPacketMsg_cases P c with ⟨e, -⟩ | ⟨i, ch, -, -, e⟩ <;> simp [e]

theorem sendPacketMsg_exhausted (h : (c.sendPacketMsg P).2.2 = true) :
    (c.sendPacketMsg P).1 = c ∧ ∀ ch ∈ c.channels, ch.sending = [] ∧ ch.sendQueue = [] := by
  rcases sendPacketMsg_cases P c with ⟨e, hnone⟩ | ⟨i, ch, -, -, e⟩
  · have hidle : ∀ ch ∈ c.channels, ch.sending = [] ∧ ch.sendQueue = [] :=
      fun ch hch => ch.isSendPending_snd.mp (hnone ch hch)
    have hsame : c.channels.map (·.isSendPending.1) = c.channels :=
      (List.map_congr_left fun ch hch =>
        by rw [ch.isSendPending_of_idle (hidle ch hch).1 (hidle ch hch).2]; rfl).trans (List.map_id _)
    rw [e, hsame]
    exact ⟨rfl, hidle⟩
  · rw [e] at h
    cases h

theorem sendPacketMsg_pendingPackets (hpos : ∀ ch ∈ c.channels, 0 < ch.maxPacketMsgPayloadSize) :
    (c.sendPacketMsg P).1.pendingPackets + (c.sendPacketMsg P).2.1.length ≤ c.pendingPackets := by
  have hsweep : ∀ ch : Channel, ch.isSendPending.1.pendingPackets ≤ ch.pendingPackets :=
    Channel.pendingPackets_isSendPending
  rcases sendPacketMsg_cases P c with ⟨e, -⟩ | ⟨i, ch, hi, hp, e⟩
  · rw [e]
    simpa [pendingPackets] using sum_map_le Channel.pendingPackets _ hsweep c.channels
  · rw [e]
    have hw := ch.pendingPackets_write (hpos ch (List.mem_of_getElem? hi)) hp
    simpa [pendingPackets] using
      sum_map_set_lt Channel.pendingPackets _ hsweep c.channels i ch _ hi (by omega)

/-- With a channel of payload size 0 holding a non-empty message, `sendPacketMsg` never finds the
channels exhausted, and such a channel is left. -/
def Stalled (c : MConnection) : Prop :=
  ∃ ch ∈ c.channels, ch.maxPacketMsgPayloadSize = 0 ∧ ch.HoldsBytes

theorem Stalled.sendPacketMsg {c : MConnection} (h : c.Stalled) :
    (c.sendPacketMsg P).2.2 = false ∧ (c.sendPacketMsg P).1.Stalled := by
  obtain ⟨ch, hch, h0, hb⟩ := h
  obtain ⟨j, hj⟩ := List.mem_iff_getElem?.mp hch
  obtain ⟨hb₁, hp₁⟩ := hb.isSendPending
  have h0₁ : ch.isSendPending.1.maxPacketMsgPayloadSize = 0 := ch.isSendPending_frame.2.2.2.trans h0
  rcases sendPacketMsg_cases P c with ⟨-, hnone⟩ | ⟨i, chi, hi, -, e⟩
  · rw [hnone ch hch] at hp₁
    cases hp₁
  · rw [e]
    refine ⟨rfl, ?_⟩
    have hmap : (c.channels.map (·.isSendPending.1))[i]? = some chi.isSendPending.1 := by simp [hi]
    have hlt : i < (c.channels.map (·.isSendPending.1)).length := (List.getElem?_eq_some_iff.mp hmap).1
    by_cases hji : j = i
    · -- the stalled channel is the one written from
      subst hji
      rw [hj, Option.some.injEq] at hi
      subst hi
      exact ⟨_, List.mem_set hlt _, (ch.isSendPending.1.nextPacketMsg_frame).2.2.2.1.trans h0₁,
        hb₁.nextPacketMsg h0₁⟩
    · refine ⟨_, List.mem_of_getElem? (i := j) ?_, h0₁, hb₁⟩
      simp [getElem?_set_map hmap, hji, hj]

end Round

section Batch

theorem sendBatch_samePayload : ∀ n c, SamePayload c (sendBatch P n c).1
  | 0, _ => rfl
  | n + 1, c => by
    rw [sendBatch]
    split_ifs
    · exact sendPacketMsg_samePayload P c
    · exact (sendPacketMsg_samePayload P c).trans (sendBatch_samePayload n _)

theorem sendBatch_written : ∀ n c, (sendBatch P n c).2.2 = false → (sendBatch P n c).2.1.length = n
  | 0, _, _ => rfl
  | n + 1, c, h => by
    rw [sendBatch] at h ⊢
    split_ifs at h ⊢ with hex
    · rw [h] at hex
      cases hex
    · have hw := sendPacketMsg_written P c
      rw [if_neg hex] at hw
      rw [List.length_append, hw, sendBatch_written n _ h]
      omega

theorem sendBatch_exhausted : ∀ n c, (sendBatch P n c).2.2 = true →
    ∀ ch ∈ (sendBatch P n c).1.channels, ch.sending = [] ∧ ch.sendQueue = []
  | 0, _, h => by cases h
  | n + 1, c, h => by
    rw [sendBatch] at h ⊢
    split_ifs at h ⊢ with hex
    · rw [(sendPacketMsg_exhausted P c hex).1]
      exact (sendPacketMsg_exhausted P c hex).2
    · exact sendBatch_exhausted n _ h

theorem sendBatch_pendingPackets : ∀ n c, (∀ ch ∈ c.channels, 0 < ch.maxPacketMsgPayloadSize) →
    (sendBatch P n c).1.pendingPackets + (sendBatch P n c).2.1.length ≤ c.pendingPackets
  | 0, _, _ => by simp [sendBatch]
  | n + 1, c, hpos => by
    have h₁ := sendPacketMsg_pendingPackets P c hpos
    rw [sendBatch]
    split_ifs
    · exact h₁
    · have h₂ := sendBatch_pendingPackets n _ ((sendPacketMsg_samePayload P c).pos hpos)
      simp only [List.length_append]
      omega

theorem Stalled.sendBatch : ∀ n {c : MConnection}, c.Stalled →
    (MConnection.sendBatch P n c).2.2 = false ∧ (MConnection.sendBatch P n c).1.Stalled
  | 0, _, h => ⟨rfl, h⟩
  | n + 1, c, h => by
    obtain ⟨hex, h₁⟩ := h.sendPacketMsg P
    rw [MConnection.sendBatch, if_neg (by simp [hex])]
    exact Stalled.sendBatch n h₁

end Batch

theorem flushLoop_of_lt : ∀ fuel c, (∀ ch ∈ c.channels, 0 < ch.maxPacketMsgPayloadSize) →
    c.pendingPackets < numBatchPacketMsgs * fuel →
    ∃ c' pkts, flushLoop P fuel c = some (c', pkts) ∧ ∀ ch ∈ c'.channels, ch.sending = [] ∧ ch.sendQueue = []
  | 0, _, _, hlt => by simp at hlt
  | fuel + 1, c, hpos, hlt => by
    rw [flushLoop, sendSomePacketMsgs]
    split_ifs with hex
    · exact ⟨_, _, rfl, sendBatch_exhausted P _ c hex⟩
    · -- a whole batch was written: ten packets fewer to write
      have hw := sendBatch_written P _ c (by simpa using hex)
      have hle := sendBatch_pendingPackets P numBatchPacketMsgs c hpos
      have hlt' : (sendBatch P numBatchPacketMsgs c).1.pendingPackets < numBatchPacketMsgs * fuel := by
        rw [hw] at hle
        rw [Nat.mul_succ] at hlt
        omega
      obtain ⟨c', pkts, e, hidle⟩ :=
        flushLoop_of_lt fuel _ ((sendBatch_samePayload P _ c).pos hpos) hlt'
      exact ⟨c', _, by rw [e]; rfl, hidle⟩

theorem Stalled.flushLoop : ∀ fuel {c : MConnection}, c.Stalled → MConnection.flushLoop P fuel c = none
  | 0, _, _ => rfl
  | fuel + 1, c, h => by
    obtain ⟨hex, h₁⟩ := h.sendBatch P numBatchPacketMsgs
    rw [MConnection.flushLoop, sendSomePacketMsgs, if_neg (by simp [hex]), Stalled.flushLoop fuel h₁]
    rfl

end MConnection

theorem field_idle {c : MConnection} (hidle : ∀ ch ∈ c.channels, ch.sending = [] ∧ ch.sendQueue = [])
    (chID : UInt8) : c.field chID (·.sending) [] = [] ∧ c.field chID (·.sendQueue) [] = [] := by
  cases hl : c.lookup chID with
  | none => simp [field_of_none hl]
  | some r =>
    obtain ⟨i, ch⟩ := r
    have hch := hidle ch (MConnection.mem_of_lookup hl)
    simp [field_of_lookup hl, hch]

namespace Link

variable (P : Picker)

theorem Reachable.sendBatch : ∀ n {L : Link}, L.Reachable →
    Reachable
      { L with
        sender := (L.sender.sendBatch P n).1
        stream := L.stream ++ (L.sender.sendBatch P n).2.1 }
  | 0, L, h => by
    cases L
    simpa [MConnection.sendBatch] using h
  | n + 1, L, h => by
    have h₁ : Reachable
        { L with
          sender := (L.sender.sendPacketMsg P).1
          stream := L.stream ++ (L.sender.sendPacketMsg P).2.1 } :=
      Transition.Reachable.step h (.sendPacketMsg L P)
    rw [MConnection.sendBatch]
    split_ifs
    · exact h₁
    · simpa [List.append_assoc] using Reachable.sendBatch n h₁

theorem Reachable.flushLoop : ∀ fuel {L : Link} {c' : MConnection} {pkts : List Packet}, L.Reachable →
    L.sender.flushLoop P fuel = some (c', pkts) → Reachable { L with sender := c', stream := L.stream ++ pkts }
  | 0, _, _, _, _, he => by cases he
  | fuel + 1, L, c', pkts, h, he => by
    have h₁ := Reachable.sendBatch P numBatchPacketMsgs h
    rw [MConnection.flushLoop, MConnection.sendSomePacketMsgs] at he
    split_ifs at he
    · cases he
      exact h₁
    · obtain ⟨r, hr, e⟩ := Option.map_eq_some_iff.mp he
      cases e
      simpa [List.append_assoc] using Reachable.flushLoop fuel h₁ hr

/-- `FlushStop` from any reachable state with a positive payload size: for any picker its loop ends
within one round more than a tenth of the packets still to write, and the stream it leaves
carries, on every channel, every message accepted, complete and in order, but for left-out empty
ones, with no message cut off. -/
theorem reachable_flushStop {L : Link} (h : L.Reachable)
    (hpos : 0 < L.sender.config.MaxPacketMsgPayloadSize) :
    ∃ c' pkts, L.sender.flushLoop P (L.sender.pendingPackets / numBatchPacketMsgs + 1) = some (c', pkts) ∧
      ∀ chID, DropsOnly List.isEmpty (on chID L.accepted) (reassemble [] (pieces chID (L.stream ++ pkts))).1 ∧
        (reassemble [] (pieces chID (L.stream ++ pkts))).2 = [] := by
  have hS := h.inv.1
  have hpos' : ∀ ch ∈ L.sender.channels, 0 < ch.maxPacketMsgPayloadSize :=
    fun ch hch => (hS.payload ch hch).symm ▸ hpos
  obtain ⟨c', pkts, e, hidle⟩ :=
    MConnection.flushLoop_of_lt P _ L.sender hpos' (Nat.lt_mul_div_succ _ (by decide))
  refine ⟨c', pkts, e, fun chID => ?_⟩
  -- the state the flush leaves is reachable, with nothing left to write
  have hS' := (h.flushLoop P _ e).inv.1
  obtain ⟨hs, hq⟩ := field_idle hidle chID
  have hlossy := hS'.lossy_field chID
  refine ⟨by simpa [undelivered, hs, hq] using hlossy, ?_⟩
  cases hl : c'.lookup chID with
  | none =>
    have hp : pieces chID (L.stream ++ pkts) = [] := (hS'.absent chID hl).2
    simp [hp]
  | some r =>
    obtain ⟨i, ch⟩ := r
    exact (hS'.chan chID i ch hl).settled
      (hidle ch (MConnection.mem_of_lookup hl)).1

theorem reachable_flushStop_sample :
    ∃ c' pkts, (sample 1 [7]).sender.flushLoop Picker.first
        ((sample 1 [7]).sender.pendingPackets / numBatchPacketMsgs + 1) = some (c', pkts) ∧
      ∀ chID, DropsOnly List.isEmpty (on chID (sample 1 [7]).accepted)
          (reassemble [] (pieces chID ((sample 1 [7]).stream ++ pkts))).1 ∧
        (reassemble [] (pieces chID ((sample 1 [7]).stream ++ pkts))).2 = [] :=
  reachable_flushStop Picker.first (sample_reachable 1 [7]) (by decide)

/-- `FlushStop` with payload size 0, which the p2p configuration accepts: once a non-empty message
has been accepted, from every reachable state its loop never ends, for any picker. -/
theorem reachable_flushStop_stalls {L : Link} (h : L.Reachable)
    (h0 : L.sender.config.MaxPacketMsgPayloadSize = 0) {chID : UInt8} {m : Bytes}
    (hm : (chID, m) ∈ L.accepted) (hne : m ≠ []) (fuel : Nat) : L.sender.flushLoop P fuel = none := by
  have hS := h.inv.1
  apply MConnection.Stalled.flushLoop
  -- no packet written holds a byte, so the message is still on the sending end
  have hkept := (hS.lossy_field chID).mem (x := m)
    (List.mem_map.mpr ⟨(chID, m), List.mem_filter.mpr ⟨hm, by simp⟩, rfl⟩) (by simpa using hne)
  obtain ⟨hdone, hpart⟩ := reassemble_of_empty (hS.pieces_empty h0 (fun _ hp => hp) chID)
  have hheld : m ∈ L.sender.field chID (·.sending) [] :: L.sender.field chID (·.sendQueue) [] := by
    simp only [undelivered, List.mem_append, hpart, List.nil_append] at hkept
    rcases hkept with (hd | hs) | hq
    · exact absurd (hdone m hd) hne
    · split_ifs at hs
      · simp at hs
      · exact List.mem_singleton.mp hs ▸ List.mem_cons_self
    · exact List.mem_cons_of_mem _ hq
  cases hl : L.sender.lookup chID with
  | none =>
    simp [field_of_none hl] at hheld
    exact absurd hheld hne
  | some r =>
    obtain ⟨i, ch⟩ := r
    have hch := MConnection.mem_of_lookup hl
    rw [field_of_lookup hl, field_of_lookup hl] at hheld
    exact ⟨ch, hch, (hS.payload ch hch).trans h0, m, hheld, hne⟩

theorem reachable_flushStop_stalls_sample : (sample 0 [7]).sender.flushLoop Picker.first 5 = none :=
  reachable_flushStop_stalls Picker.first (sample_reachable 0 [7]) rfl
    (by decide : ((1 : UInt8), ([7] : Bytes)) ∈ (sample 0 [7]).accepted) (by decide) 5

end Link

end Dgrid.P2p.Conn
