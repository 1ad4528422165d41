import Dgrid.P2p.ConnectionSpec
import Dgrid.Lib.MessageStream
import Dgrid.Lib.Transition

/-! One direction of a connection as a system: the sending end, the stream of packets it has
written, how far the receiving end has read it, the receiving end, and the two logs the callers
see, the messages `Send` and `TrySend` accepted and those handed to `onReceive`. Its steps are
those of the callers, of the send routine (`sendPacketMsg`, a ping, a pong), of the receive
routine (one packet read) and the stops of either end, in any order.

Each channel is followed through `undelivered`: the messages rebuilt from the packets not yet
read, the one whose rest is still `sending`, and the queue. The sending end keeps it, against the
messages accepted, a list that drops only empty messages (`SendInv`); the receiving end has
rebuilt exactly the messages of the packets it read (`RecvInv`). -/

namespace Dgrid.P2p.Conn

open Go GoMap Framing Lossy

/-- The messages of channel `chID` in a log. -/
def on (chID : UInt8) (log : List (UInt8 × Bytes)) : List Bytes :=
  (log.filter (·.1 == chID)).map (·.2)

/-- The payload of a packet of channel `chID`, with whether it ends its message. -/
def piece (chID : UInt8) : Packet → Option (Bytes × Bool)
  | .msg p => if p.ChannelID = chID then some (p.Bytes, decide (p.EOF = 0x01)) else none
  | _ => none

/-- The payloads of the packets of channel `chID` in a stream. -/
def pieces (chID : UInt8) (ps : List Packet) : List (Bytes × Bool) := ps.filterMap (piece chID)

/-- The messages of a channel not yet delivered: those rebuilt from the partial message `acc`
and the pieces `ps` still to read, the one whose rest is `sending`, and the queue. -/
def undelivered (acc : Bytes) (ps : List (Bytes × Bool)) (sending : Bytes) (queue : List Bytes) :
    List Bytes :=
  (reassemble acc ps).1 ++ (if sending = [] then [] else [(reassemble acc ps).2 ++ sending]) ++
    queue

/-- What the channel of `chID` holds, read by `f`, or `d` when there is no such channel. -/
def MConnection.field {α : Type} (c : MConnection) (chID : UInt8) (f : Channel → α) (d : α) : α :=
  match c.lookup chID with
  | some (_, ch) => f ch
  | none => d

@[simp] theorem on_nil (chID : UInt8) : on chID [] = [] := rfl

theorem on_append (chID : UInt8) (l l' : List (UInt8 × Bytes)) :
    on chID (l ++ l') = on chID l ++ on chID l' := by
  simp [on]

theorem on_single (chID chID' : UInt8) (m : Bytes) :
    on chID [(chID', m)] = if chID' = chID then [m] else [] := by
  by_cases h : chID' = chID <;> simp [on, h]

@[simp] theorem pieces_nil (chID : UInt8) : pieces chID [] = [] := rfl

theorem pieces_append (chID : UInt8) (l l' : List Packet) :
    pieces chID (l ++ l') = pieces chID l ++ pieces chID l' := List.filterMap_append

theorem pieces_msg (chID : UInt8) (p : PacketMsg) :
    pieces chID [.msg p] = if p.ChannelID = chID then [(p.Bytes, decide (p.EOF = 0x01))] else [] := by
  by_cases h : p.ChannelID = chID <;> simp [pieces, piece, h]

@[simp] theorem pieces_ping (chID : UInt8) : pieces chID [.ping] = [] := rfl

@[simp] theorem pieces_pong (chID : UInt8) : pieces chID [.pong] = [] := rfl

theorem field_of_lookup {α : Type} {c : MConnection} {chID : UInt8} {i : Nat} {ch : Channel}
    (h : c.lookup chID = some (i, ch)) (f : Channel → α) (d : α) : c.field chID f d = f ch := by
  simp [MConnection.field, h]

theorem field_of_none {α : Type} {c : MConnection} {chID : UInt8} (h : c.lookup chID = none)
    (f : Channel → α) (d : α) : c.field chID f d = d := by
  simp [MConnection.field, h]

theorem undelivered_append (acc : Bytes) (ps ps' : List (Bytes × Bool)) (s : Bytes) (q : List Bytes) :
    undelivered acc (ps ++ ps') s q =
      (reassemble acc ps).1 ++ undelivered (reassemble acc ps).2 ps' s q := by
  simp [undelivered, reassemble_append, List.append_assoc]

theorem undelivered_enqueue (acc : Bytes) (ps : List (Bytes × Bool)) (s : Bytes) (q : List Bytes)
    (m : Bytes) : undelivered acc ps s (q ++ [m]) = undelivered acc ps s q ++ [m] := by
  simp [undelivered, List.append_assoc]

theorem recvPacketMsg_reassemble {ch ch' : Channel} {pkt : PacketMsg} {out : Option Bytes}
    (h : ch.recvPacketMsg pkt = .ok (ch', out)) :
    out.toList = (reassemble ch.recving [(pkt.Bytes, decide (pkt.EOF = 0x01))]).1 ∧
      ch' = { ch with recving := (reassemble ch.recving [(pkt.Bytes, decide (pkt.EOF = 0x01))]).2 } ∧
      (ch.recving.length + pkt.Bytes.length : Int) ≤ ch.desc.RecvMessageCapacity := by
  obtain ⟨hcap, ⟨heof, e⟩ | ⟨heof, e⟩⟩ := ch.recvPacketMsg_ok h <;>
    simp only [Prod.mk.injEq] at e <;> obtain ⟨rfl, rfl⟩ := e
  · simp [heof, hcap]
  · simp [heof, hcap]

section Sending

variable (ch : Channel) (ps : List (Bytes × Bool))

theorem undelivered_nextPacketMsg :
    undelivered [] (ps ++ [(ch.nextPacketMsg.2.Bytes, decide (ch.nextPacketMsg.2.EOF = 0x01))])
        ch.nextPacketMsg.1.sending ch.nextPacketMsg.1.sendQueue =
      (reassemble [] ps).1 ++ [(reassemble [] ps).2 ++ ch.sending] ++ ch.sendQueue := by
  rcases Nat.lt_or_ge ch.maxPacketMsgPayloadSize ch.sending.length with h | h
  · -- a packet of the first bytes: the rest stays in `sending`
    have hne : ch.sending.drop ch.maxPacketMsgPayloadSize ≠ [] := by
      simpa [List.drop_eq_nil_iff] using h
    simp [undelivered, ch.nextPacketMsg_more h, reassemble_append, hne, List.append_assoc]
  · simp [undelivered, ch.nextPacketMsg_eof h, reassemble_append]

/-- What the sending end keeps for one channel, given the pieces `ps` of its packets written and
the messages `acc` accepted on it: the partial message of the pieces is empty unless a message
is still being sent, what is accepted and not delivered drops only empty messages of `acc`, and
`sendQueueSize` counts the messages accepted and not completed by an `EOF`, modulo `2^32`. -/
structure SendInv (ch : Channel) (ps : List (Bytes × Bool)) (acc : List Bytes) : Prop where
  settled : ch.sending = [] → (reassemble [] ps).2 = []
  lossy : DropsOnly List.isEmpty acc (undelivered [] ps ch.sending ch.sendQueue)
  count : ch.sendQueueSize = wrap32 (acc.length - (reassemble [] ps).1.length)

variable {ch ps} {acc : List Bytes}

theorem SendInv.enqueue (h : SendInv ch ps acc) (m : Bytes) :
    SendInv { ch with sendQueue := ch.sendQueue ++ [m], sendQueueSize := wrap32 (ch.sendQueueSize + 1) }
      ps (acc ++ [m]) := by
  refine ⟨h.settled, ?_, ?_⟩
  · simpa only [undelivered_enqueue] using h.lossy.append [m]
  · simp only [h.count, wrap32_add_wrap32, List.length_append, List.length_singleton, Nat.cast_add,
      Nat.cast_one]
    ring_nf

theorem SendInv.isSendPending (h : SendInv ch ps acc) : SendInv ch.isSendPending.1 ps acc := by
  obtain ⟨hdesc, hsize, -, -⟩ := ch.isSendPending_frame
  rcases ch.isSendPending_cases with ⟨-, e⟩ | ⟨-, -, e⟩ | ⟨m, q, hs, hq, e⟩
  · rwa [e]
  · rwa [e]
  · rw [e]
    have hacc := h.settled hs
    refine ⟨fun hm => hacc, ?_, by simpa [hs] using h.count⟩
    refine h.lossy.trans ?_
    rw [undelivered, undelivered, hs, hq, hacc]
    by_cases hm : m = []
    · -- the empty message is lost here
      subst hm
      simpa using dropsOnly_erase (p := List.isEmpty) (reassemble [] ps).1 q (x := []) rfl
    · simpa [hm] using DropsOnly.refl (p := List.isEmpty) ((reassemble [] ps).1 ++ m :: q)

theorem SendInv.write (h : SendInv ch ps acc) (hp : ch.isSendPending.2 = true) :
    SendInv ch.isSendPending.1.nextPacketMsg.1
      (ps ++ [(ch.isSendPending.1.nextPacketMsg.2.Bytes,
        decide (ch.isSendPending.1.nextPacketMsg.2.EOF = 0x01))]) acc := by
  set ch₁ := ch.isSendPending.1 with hch₁
  have hsame : undelivered [] ps ch.sending ch.sendQueue =
      (reassemble [] ps).1 ++ [(reassemble [] ps).2 ++ ch₁.sending] ++ ch₁.sendQueue := by
    rcases ch.isSendPending_cases with ⟨hs, e⟩ | ⟨-, -, e⟩ | ⟨m, q, hs, hq, e⟩
    · simp [hch₁, e, undelivered, hs]
    · simp [e] at hp
    · simp [hch₁, e, undelivered, hs, hq, h.settled hs]
  have hsize : ch₁.sendQueueSize = ch.sendQueueSize := ch.isSendPending_frame.2.1
  refine ⟨fun hs' => ?_, ?_, ?_⟩
  · -- only an `EOF` packet empties `sending`, and it completes the partial message
    rcases Nat.lt_or_ge ch₁.maxPacketMsgPayloadSize ch₁.sending.length with hl | hl
    · rw [ch₁.nextPacketMsg_more hl] at hs'
      simp [List.drop_eq_nil_iff] at hs'
      omega
    · simp [ch₁.nextPacketMsg_eof hl, reassemble_append]
  · rw [undelivered_nextPacketMsg, ← hsame]
    exact h.lossy
  · rcases Nat.lt_or_ge ch₁.maxPacketMsgPayloadSize ch₁.sending.length with hl | hl
    · simpa [ch₁.nextPacketMsg_more hl, reassemble_append, hsize] using h.count
    · simp only [ch₁.nextPacketMsg_eof hl, reassemble_append, decide_true, reassemble_cons_true,
        reassemble_nil, List.length_append, List.length_singleton, hsize, h.count, wrap32_sub_wrap32]
      push_cast
      ring_nf

end Sending

theorem field_congr {α : Type} {c c' : MConnection} (hidx : c'.channelsIdx = c.channelsIdx)
    (g : Nat → Channel → Channel) (hg : ∀ j, c'.channels[j]? = (c.channels[j]?).map (g j))
    (chID : UInt8) (f : Channel → α) (d : α) :
    c'.field chID f d = match c.lookup chID with
      | some (j, ch) => f (g j ch)
      | none => d := by
  simp only [MConnection.field, MConnection.lookup_congr hidx g hg]
  cases c.lookup chID <;> rfl

/-- The rule that picks the first pending channel. -/
def Picker.first : Picker where
  leastChannel swept := swept.findIdx? (·.2)
  pending swept i h := by
    obtain ⟨hi, hp, -⟩ := List.findIdx?_eq_some_iff_getElem.mp h
    simp [List.getElem?_eq_getElem hi, hp]
  exhausted swept h r hr := by
    simpa using List.findIdx?_eq_none_iff.mp h r hr

/-- One direction of a connection: the sending end, the packets it has written in order, how
many of them the receiving end has read, the receiving end, the messages `Send` and `TrySend`
accepted and the messages handed to `onReceive`, each with its channel. -/
structure Link where
  sender : MConnection
  stream : List Packet
  read : Nat
  receiver : MConnection
  accepted : List (UInt8 × Bytes)
  delivered : List (UInt8 × Bytes)

namespace Link

/-- Two connections just built and started, nothing written. -/
def Initial (L : Link) : Prop :=
  ∃ chDescs config chDescs' config' s r, NewMConnectionWithConfig chDescs config = .ok s ∧
    NewMConnectionWithConfig chDescs' config' = .ok r ∧ L = ⟨s.Start, [], 0, r.Start, [], []⟩

/-- The steps of the callers and of the routines of either end. `sendPacketMsg` is one step: a
`Send` running meanwhile only adds to a queue and to `sendQueueSize`, which commutes with it. -/
inductive Step : Link → Link → Prop
  | send (L : Link) (chID : UInt8) (msgBytes : Bytes) :
    Step L { L with
      sender := (L.sender.Send chID msgBytes).1
      accepted := L.accepted ++ if (L.sender.Send chID msgBytes).2 then [(chID, msgBytes)] else [] }
  | trySend (L : Link) (chID : UInt8) (msgBytes : Bytes) :
    Step L { L with
      sender := (L.sender.TrySend chID msgBytes).1
      accepted := L.accepted ++ if (L.sender.TrySend chID msgBytes).2 then [(chID, msgBytes)] else [] }
  | sendPacketMsg (L : Link) (P : Picker) :
    Step L { L with sender := (L.sender.sendPacketMsg P).1, stream := L.stream ++ (L.sender.sendPacketMsg P).2.1 }
  | ping (L : Link) : Step L { L with stream := L.stream ++ [.ping] }
  | pong (L : Link) : Step L { L with stream := L.stream ++ [.pong] }
  | recv (L : Link) (p : Packet) (r : MConnection × Option (UInt8 × Bytes)) :
    L.receiver.running = true → L.stream[L.read]? = some p → L.receiver.recvPacket p = .ok r →
    Step L { L with read := L.read + 1, receiver := r.1, delivered := L.delivered ++ r.2.toList }
  | recvError (L : Link) (p : Packet) (err : ConnError) :
    L.receiver.running = true → L.stream[L.read]? = some p → L.receiver.recvPacket p = .error err →
    Step L { L with read := L.read + 1, receiver := L.receiver.stopForError }
  | stopSender (L : Link) : Step L { L with sender := L.sender.stopForError }
  | stopReceiver (L : Link) : Step L { L with receiver := L.receiver.stopForError }

def Reachable (L : Link) : Prop := Transition.Reachable Initial Step L

/-- The channel `newChannel` builds for ID 1, priority 1 and the default capacities, with payload
size `n`. -/
def sampleChannel (n : Nat) : Channel := ⟨⟨1, 1, 1, 4096, 22020096⟩, [], 0, [], [], n⟩

/-- Two connections of that one channel, built with payload size `n` and started, after `Send` of
`msg` on the channel. -/
def sample (n : Nat) (msg : Bytes) : Link :=
  let c : MConnection := MConnection.Start
    ⟨[sampleChannel n], indexChannels [sampleChannel n], ⟨n, 60, 45⟩, false⟩
  ⟨(c.Send 1 msg).1, [], 0, c, if (c.Send 1 msg).2 then [(1, msg)] else [], []⟩

theorem sample_reachable (n : Nat) (msg : Bytes) : (sample n msg).Reachable :=
  Transition.Reachable.step
    (.init ⟨[⟨1, 1, 0, 0, 0⟩], ⟨n, 60, 45⟩, [⟨1, 1, 0, 0, 0⟩], ⟨n, 60, 45⟩, _, _, rfl, rfl, rfl⟩)
    (Step.send _ 1 msg)

/-- The messages of channel `chID` in transit: rebuilt from the receiving end's buffer and the
packets it has not read, the one whose rest the sending end is sending, and its queue. -/
def inTransit (L : Link) (chID : UInt8) : List Bytes :=
  undelivered (L.receiver.field chID (·.recving) []) (pieces chID (L.stream.drop L.read))
    (L.sender.field chID (·.sending) []) (L.sender.field chID (·.sendQueue) [])

/-- The invariant of the sending end: the map is right, a channel the map does not name is idle,
each channel named keeps `SendInv` against its packets written and its messages accepted, an ID
with no channel has neither, and no packet is larger than the configured payload size. -/
structure SenderInv (L : Link) : Prop where
  idx : L.sender.IdxOk
  idle : ∀ i ch, L.sender.channels[i]? = some ch → L.sender.channelsIdx.lookup ch.desc.ID ≠ some i →
    ch.sending = [] ∧ ch.sendQueue = []
  chan : ∀ chID i ch, L.sender.lookup chID = some (i, ch) →
    SendInv ch (pieces chID L.stream) (on chID L.accepted)
  absent : ∀ chID, L.sender.lookup chID = none → on chID L.accepted = [] ∧ pieces chID L.stream = []
  payload : ∀ ch ∈ L.sender.channels,
    ch.maxPacketMsgPayloadSize = L.sender.config.MaxPacketMsgPayloadSize
  bytes : ∀ m, Packet.msg m ∈ L.stream → m.Bytes.length ≤ L.sender.config.MaxPacketMsgPayloadSize

/-- The invariant of the receiving end: the map is right, the messages delivered on each channel
are those rebuilt from the first `k` packets, `k` being how many it has read while it runs, with
its buffer the partial message they leave; no buffer and no message delivered exceeds the
channel's `RecvMessageCapacity`. -/
structure RecvInv (L : Link) : Prop where
  idx : L.receiver.IdxOk
  read_le : L.read ≤ L.stream.length
  rebuilt : ∃ k ≤ L.read,
    (∀ chID, on chID L.delivered = (reassemble [] (pieces chID (L.stream.take k))).1) ∧
    (L.receiver.running = true → k = L.read ∧ ∀ chID,
      L.receiver.field chID (·.recving) [] = (reassemble [] (pieces chID (L.stream.take k))).2)
  cap : ∀ ch ∈ L.receiver.channels,
    ch.recving = [] ∨ (ch.recving.length : Int) ≤ ch.desc.RecvMessageCapacity
  fits : ∀ d ∈ L.delivered, ∃ i ch, L.receiver.lookup d.1 = some (i, ch) ∧
    (d.2.length : Int) ≤ ch.desc.RecvMessageCapacity

namespace SenderInv

variable {L L' : Link}

/-- A step that changes the sending end's channels by `g` at each position, keeping their
descriptors and payload sizes and the idle channels the map does not name idle, and keeps
`SendInv` of every channel named, keeps the invariant. -/
theorem update (h : L.SenderInv)
    (hidx : L'.sender.channelsIdx = L.sender.channelsIdx)
    (hconf : L'.sender.config = L.sender.config)
    (g : Nat → Channel → Channel)
    (hg : ∀ j, L'.sender.channels[j]? = (L.sender.channels[j]?).map (g j))
    (hdesc : ∀ j x, L.sender.channels[j]? = some x →
      (g j x).desc = x.desc ∧ (g j x).maxPacketMsgPayloadSize = x.maxPacketMsgPayloadSize)
    (hidle : ∀ j x, L.sender.channels[j]? = some x → x.sending = [] → x.sendQueue = [] →
      L.sender.channelsIdx.lookup x.desc.ID ≠ some j → (g j x).sending = [] ∧ (g j x).sendQueue = [])
    (hchan : ∀ chID j x, L.sender.lookup chID = some (j, x) →
      SendInv x (pieces chID L.stream) (on chID L.accepted) →
      SendInv (g j x) (pieces chID L'.stream) (on chID L'.accepted))
    (hnone : ∀ chID, L.sender.lookup chID = none →
      on chID L'.accepted = on chID L.accepted ∧ pieces chID L'.stream = pieces chID L.stream)
    (hbytes : ∀ m, Packet.msg m ∈ L'.stream →
      Packet.msg m ∈ L.stream ∨ m.Bytes.length ≤ L.sender.config.MaxPacketMsgPayloadSize) :
    L'.SenderInv := by
  have hlookup := MConnection.lookup_congr hidx g hg
  refine ⟨h.idx.congr hidx g hg fun j x hx => (hdesc j x hx).1, ?_, ?_, ?_, ?_, ?_⟩
  · intro j x' hx' hn
    obtain ⟨x, hx, rfl⟩ := Option.map_eq_some_iff.mp ((hg j).symm.trans hx')
    rw [hidx, (hdesc j x hx).1] at hn
    obtain ⟨hs, hq⟩ := h.idle j x hx hn
    exact hidle j x hx hs hq hn
  · intro chID j x' hl'
    rw [hlookup] at hl'
    obtain ⟨⟨j₀, x⟩, hl, he⟩ := Option.map_eq_some_iff.mp hl'
    simp only [Prod.mk.injEq] at he
    obtain ⟨rfl, rfl⟩ := he
    exact hchan chID j₀ x hl (h.chan chID j₀ x hl)
  · intro chID hl'
    rw [hlookup, Option.map_eq_none_iff] at hl'
    rw [(hnone chID hl').1, (hnone chID hl').2]
    exact h.absent chID hl'
  · intro x' hx'
    obtain ⟨j, hj⟩ := List.mem_iff_getElem?.mp hx'
    obtain ⟨x, hx, rfl⟩ := Option.map_eq_some_iff.mp ((hg j).symm.trans hj)
    rw [(hdesc j x hx).2, hconf]
    exact h.payload x (List.mem_of_getElem? hx)
  · intro m hm
    rw [hconf]
    rcases hbytes m hm with hm | hm
    · exact h.bytes m hm
    · exact hm

theorem congr (h : L.SenderInv) (hs : L'.sender = L.sender) (hst : L'.stream = L.stream)
    (ha : L'.accepted = L.accepted) : L'.SenderInv := by
  obtain ⟨s, st, rd, r, a, d⟩ := L'
  simp only at hs hst ha
  subst hs hst ha
  exact ⟨h.idx, h.idle, h.chan, h.absent, h.payload, h.bytes⟩

theorem queueOn (h : L.SenderInv) (enqueue : Channel → Bytes → Channel × Bool)
    (henq : ∀ ch bytes, enqueue ch bytes = ch.trySendBytes bytes) (chID : UInt8) (msgBytes : Bytes) :
    SenderInv { L with
      sender := (L.sender.queueOn enqueue chID msgBytes).1
      accepted := L.accepted ++
        if (L.sender.queueOn enqueue chID msgBytes).2 then [(chID, msgBytes)] else [] } := by
  rcases L.sender.queueOn_cases enqueue henq chID msgBytes with ⟨i, ch, -, hl, -, he⟩ | he
  · rw [he]
    have hch := (MConnection.lookup_eq_some.mp hl).2
    have hid := h.idx.id_eq hl
    let g : Nat → Channel → Channel := fun j x => if j = i then
      { x with
        sendQueue := x.sendQueue ++ [msgBytes], sendQueueSize := wrap32 (x.sendQueueSize + 1) }
    else x
    refine h.update rfl rfl g ?_ ?_ ?_ ?_ ?_ ?_
    · intro j
      rw [MConnection.getElem?_set_map hch j]
      by_cases hji : j = i
      · subst hji
        simp [hch, g]
      · simp [g, hji]
    · intro j x _
      by_cases hji : j = i <;> simp [g, hji]
    · intro j x hx hs hq hn
      have hji : j ≠ i := by
        rintro rfl
        rw [hch] at hx
        cases hx
        exact hn (hid ▸ (MConnection.lookup_eq_some.mp hl).1)
      simp [g, hji, hs, hq]
    · intro chID' j x hl' hinv
      by_cases hji : j = i
      · -- the channel the message is queued on
        subst hji
        have hx := (MConnection.lookup_eq_some.mp hl').2
        rw [hch] at hx
        cases hx
        obtain rfl : chID' = chID := (h.idx.id_eq hl').symm.trans hid
        simpa [g, on_append, on_single] using hinv.enqueue msgBytes
      · have hne : chID ≠ chID' := by
          rintro rfl
          rw [hl] at hl'
          cases hl'
          exact hji rfl
        simpa [g, hji, on_append, on_single, hne] using hinv
    · intro chID' hl'
      have hne : chID ≠ chID' := by
        rintro rfl
        rw [hl] at hl'
        cases hl'
      simp [on_append, on_single, hne]
    · exact fun m hm => .inl hm
  · rw [he]
    exact h.congr rfl rfl (by simp)

/-- `sendPacketMsg` keeps the invariant: the channels the sweep passes keep it by
`SendInv.isSendPending`, the one written from by `SendInv.write`, and the packet goes to the
pieces of its own channel only. -/
theorem sendPacketMsg (h : L.SenderInv) (P : Picker) :
    SenderInv { L with
      sender := (L.sender.sendPacketMsg P).1
      stream := L.stream ++ (L.sender.sendPacketMsg P).2.1 } := by
  rcases MConnection.sendPacketMsg_cases P L.sender with ⟨he, -⟩ | ⟨i, ch, hch, hp, he⟩
  · rw [he]
    refine h.update rfl rfl (fun _ x => x.isSendPending.1) (fun j => by simp [List.getElem?_map])
      (fun j x _ => ⟨x.isSendPending_frame.1, x.isSendPending_frame.2.2.2⟩) ?_ ?_ ?_ ?_
    · intro j x _ hs hq _
      simp [x.isSendPending_of_idle hs hq, hs, hq]
    · intro chID j x _ hinv
      simpa using hinv.isSendPending
    · intro chID _
      simp
    · intro m hm
      exact .inl (by simpa using hm)
  · rw [he]
    -- the channel written from is pending, so the map names it
    have hnamed : L.sender.channelsIdx.lookup ch.desc.ID = some i := by
      by_contra hn
      obtain ⟨hs, hq⟩ := h.idle i ch hch hn
      simp [ch.isSendPending_of_idle hs hq] at hp
    have hl : L.sender.lookup ch.desc.ID = some (i, ch) :=
      MConnection.lookup_eq_some.mpr ⟨hnamed, hch⟩
    obtain ⟨hd₁, -, -, hm₁⟩ := ch.isSendPending_frame
    obtain ⟨hd₂, -, -, hm₂, hid₂, hb₂⟩ := ch.isSendPending.1.nextPacketMsg_frame
    let g : Nat → Channel → Channel := fun j x =>
      if j = i then x.isSendPending.1.nextPacketMsg.1 else x.isSendPending.1
    have hpkt : pieces ch.desc.ID [.msg ch.isSendPending.1.nextPacketMsg.2] =
        [(ch.isSendPending.1.nextPacketMsg.2.Bytes,
          decide (ch.isSendPending.1.nextPacketMsg.2.EOF = 0x01))] := by
      simp [pieces_msg, hid₂, hd₁]
    refine h.update rfl rfl g ?_ ?_ ?_ ?_ ?_ ?_
    · intro j
      have hi : (L.sender.channels.map (·.isSendPending.1))[i]? = some ch.isSendPending.1 := by
        simp [List.getElem?_map, hch]
      rw [MConnection.getElem?_set_map hi j]
      by_cases hji : j = i
      · subst hji
        simp [hch, g]
      · simp [List.getElem?_map, g, hji, Function.comp_def]
    · intro j x _
      by_cases hji : j = i
      · simp only [g, if_pos hji, x.isSendPending.1.nextPacketMsg_frame.1,
          x.isSendPending.1.nextPacketMsg_frame.2.2.2.1, x.isSendPending_frame.1,
          x.isSendPending_frame.2.2.2, and_self]
      · simp only [g, if_neg hji, x.isSendPending_frame.1, x.isSendPending_frame.2.2.2, and_self]
    · intro j x hx hs hq hn
      have hji : j ≠ i := by
        rintro rfl
        rw [hch] at hx
        cases hx
        exact hn hnamed
      simp [g, hji, x.isSendPending_of_idle hs hq, hs, hq]
    · intro chID j x hl' hinv
      rw [pieces_append]
      by_cases hji : j = i
      · -- the channel written from: its packet is its next piece
        subst hji
        have hx := (MConnection.lookup_eq_some.mp hl').2
        rw [hch] at hx
        cases hx
        obtain rfl : ch.desc.ID = chID := h.idx.id_eq hl'
        simpa [g, hpkt] using hinv.write hp
      · have hne : ch.desc.ID ≠ chID := by
          rintro rfl
          rw [hl] at hl'
          cases hl'
          exact hji rfl
        simpa [g, hji, pieces_msg, hid₂, hd₁, hne] using hinv.isSendPending
    · intro chID hl'
      have hne : ch.desc.ID ≠ chID := by
        rintro rfl
        rw [hl] at hl'
        cases hl'
      simp [pieces_append, pieces_msg, hid₂, hd₁, hne]
    · intro m hm
      rcases List.mem_append.mp hm with hm | hm
      · exact .inl hm
      · simp only [List.mem_singleton, Packet.msg.injEq] at hm
        subst hm
        rw [← h.payload ch (List.mem_of_getElem? hch), ← hm₁]
        exact .inr hb₂

theorem appendControl (h : L.SenderInv) (p : Packet) (hp : p = .ping ∨ p = .pong) :
    SenderInv { L with stream := L.stream ++ [p] } := by
  refine h.update rfl rfl (fun _ x => x) (fun j => by simp) (fun _ _ _ => ⟨rfl, rfl⟩)
    (fun _ _ _ hs hq _ => ⟨hs, hq⟩) ?_ ?_ ?_
  · intro chID j x _ hinv
    rcases hp with rfl | rfl <;> simpa [pieces_append] using hinv
  · intro chID _
    rcases hp with rfl | rfl <;> simp [pieces_append]
  · intro m hm
    rcases hp with rfl | rfl <;> exact .inl (by simpa using hm)

theorem stop (h : L.SenderInv) : SenderInv { L with sender := L.sender.stopForError } :=
  h.update rfl rfl (fun _ x => x) (fun j => by simp [MConnection.stopForError])
    (fun _ _ _ => ⟨rfl, rfl⟩) (fun _ _ _ hs hq _ => ⟨hs, hq⟩)
    (fun _ _ _ _ hinv => hinv) (fun _ _ => ⟨rfl, rfl⟩) (fun _ hm => .inl hm)

end SenderInv

namespace RecvInv

variable {L : Link}

theorem extend (h : L.RecvInv) {L' : Link} (hr : L'.receiver = L.receiver) (hread : L'.read = L.read)
    (hd : L'.delivered = L.delivered) (extra : List Packet) (hs : L'.stream = L.stream ++ extra) :
    L'.RecvInv := by
  obtain ⟨k, hk, hdel, hrun⟩ := h.rebuilt
  have htake : L'.stream.take k = L.stream.take k := by
    rw [hs, List.take_append_of_le_length (hk.trans h.read_le)]
  refine ⟨hr ▸ h.idx, ?_, ⟨k, hread ▸ hk, ?_, ?_⟩, hr ▸ h.cap, hr ▸ hd ▸ h.fits⟩
  · rw [hread, hs, List.length_append]
    exact h.read_le.trans (Nat.le_add_right _ _)
  · intro chID
    rw [hd, htake, hdel]
  · intro hrun'
    obtain ⟨hk', hacc⟩ := hrun (hr ▸ hrun')
    exact ⟨hread ▸ hk', fun chID => by rw [hr, htake, hacc]⟩

theorem stop (h : L.RecvInv) {L' : Link} (hr : L'.receiver = L.receiver.stopForError)
    (hread : L.read ≤ L'.read) (hle : L'.read ≤ L'.stream.length) (hs : L'.stream = L.stream)
    (hd : L'.delivered = L.delivered) : L'.RecvInv := by
  obtain ⟨k, hk, hdel, -⟩ := h.rebuilt
  refine ⟨hr ▸ h.idx, hle, ⟨k, hk.trans hread, fun chID => by rw [hd, hs, hdel], ?_⟩,
    hr ▸ h.cap, hr ▸ hd ▸ h.fits⟩
  intro hrun
  simp [hr, MConnection.stopForError] at hrun

theorem recv (h : L.RecvInv) {p : Packet} {r : MConnection × Option (UInt8 × Bytes)}
    (hrun : L.receiver.running = true) (hp : L.stream[L.read]? = some p)
    (hr : L.receiver.recvPacket p = .ok r) :
    RecvInv { L with read := L.read + 1, receiver := r.1, delivered := L.delivered ++ r.2.toList } := by
  obtain ⟨k, -, hdel, hrecv⟩ := h.rebuilt
  obtain ⟨rfl, hacc⟩ := hrecv hrun
  have hlt : L.read < L.stream.length := (List.getElem?_eq_some_iff.mp hp).1
  have htake : L.stream.take (L.read + 1) = L.stream.take L.read ++ [p] := by
    rw [List.take_add_one, hp]
    rfl
  rcases L.receiver.recvPacket_ok hr with ⟨hpp, rfl⟩ | ⟨pkt, i, ch, ch', out, rfl, hl, hm, rfl⟩
  · -- a ping or a pong: only the count of packets read moves
    have hpieces : ∀ chID, pieces chID [p] = [] := by
      rcases hpp with rfl | rfl <;> simp
    refine ⟨h.idx, hlt, ⟨L.read + 1, le_refl _, ?_, ?_⟩, h.cap, by simpa using h.fits⟩
    · intro chID
      simp [htake, pieces_append, hpieces, hdel]
    · exact fun _ => ⟨rfl, fun chID => by simp [htake, pieces_append, hpieces, hacc]⟩
  · -- a packet of channel `pkt.ChannelID`, at position `i`
    obtain ⟨hout, rfl, hcap⟩ := recvPacketMsg_reassemble hm
    have hch := (MConnection.lookup_eq_some.mp hl).2
    have hid := h.idx.id_eq hl
    set pc := (pkt.Bytes, decide (pkt.EOF = 0x01)) with hpc
    set r' : MConnection := { L.receiver with
      channels := (L.receiver.channels.set i { ch with recving := (reassemble ch.recving [pc]).2 }) }
      with hr'
    let g : Nat → Channel → Channel := fun j x =>
      if j = i then { x with recving := (reassemble ch.recving [pc]).2 } else x
    have hg : ∀ j, r'.channels[j]? = (L.receiver.channels[j]?).map (g j) := by
      intro j
      rw [hr', MConnection.getElem?_set_map hch j]
      by_cases hji : j = i
      · subst hji
        simp [hch, g]
      · simp [g, hji]
    have hdesc : ∀ j x, L.receiver.channels[j]? = some x → (g j x).desc = x.desc := by
      intro j x _
      by_cases hji : j = i <;> simp [g, hji]
    have hidx : r'.channelsIdx = L.receiver.channelsIdx := rfl
    have hlookup : ∀ chID, r'.lookup chID = (L.receiver.lookup chID).map fun r => (r.1, g r.1 r.2) :=
      MConnection.lookup_congr hidx g hg
    -- the pieces of the packet read, for each channel
    have hpiece : ∀ chID, pieces chID [.msg pkt] = if pkt.ChannelID = chID then [pc] else [] := by
      intro chID
      simp [pieces_msg, hpc]
    refine ⟨h.idx.congr hidx g hg hdesc, hlt, ⟨L.read + 1, le_refl _, ?_, ?_⟩, ?_, ?_⟩
    · intro chID
      simp only [on_append, htake, pieces_append, hpiece, reassemble_append, hdel]
      by_cases hc : pkt.ChannelID = chID
      · subst hc
        rw [← hacc, field_of_lookup hl, if_pos rfl, ← hout]
        cases out <;> simp [on]
      · have : on chID (out.map (pkt.ChannelID, ·)).toList = [] := by
          cases out <;> simp [on, hc]
        simp [hc, this]
    · intro _
      refine ⟨rfl, fun chID => ?_⟩
      rw [field_congr hidx g hg, htake, pieces_append, hpiece, reassemble_append]
      by_cases hc : pkt.ChannelID = chID
      · subst hc
        rw [hl, ← hacc, field_of_lookup hl]
        simp [g]
      · rw [if_neg hc, reassemble_nil, ← hacc]
        unfold MConnection.field
        cases hl' : L.receiver.lookup chID with
        | none => rfl
        | some jx =>
          obtain ⟨j, x⟩ := jx
          have hji : j ≠ i := fun e => h.idx.ne_of_lookup hl hl' hc e.symm
          simp [g, hji]
    · intro x hx
      rcases List.mem_or_eq_of_mem_set hx with hx | rfl
      · exact h.cap x hx
      · -- an `EOF` empties the buffer; otherwise it grew within the capacity checked
        by_cases heof : pkt.EOF = 0x01
        · left
          simp [hpc, heof]
        · right
          simp only [hpc, heof, decide_false, reassemble_cons_false, reassemble_nil,
            List.length_append]
          push_cast
          exact hcap
    · intro d hd
      rcases List.mem_append.mp hd with hd | hd
      · obtain ⟨j, x, hl', hfit⟩ := h.fits d hd
        refine ⟨j, g j x, by rw [hlookup, hl']; rfl, ?_⟩
        rw [hdesc j x (MConnection.lookup_eq_some.mp hl').2]
        exact hfit
      · -- the message just delivered fits the capacity checked before it was taken
        have hmap : (out.map (pkt.ChannelID, ·)).toList = out.toList.map (pkt.ChannelID, ·) := by
          cases out <;> rfl
        rw [hmap, hout] at hd
        obtain ⟨m, hm', rfl⟩ := List.mem_map.mp hd
        refine ⟨i, g i ch, by rw [hlookup, hl]; rfl, ?_⟩
        rw [hdesc i ch hch]
        by_cases heof : pkt.EOF = 0x01
        · simp only [hpc, heof, decide_true, reassemble_cons_true, reassemble_nil,
            List.mem_singleton] at hm'
          subst hm'
          simpa using hcap
        · simp [hpc, heof] at hm'

end RecvInv

theorem Initial.inv {L : Link} (h : L.Initial) : L.SenderInv ∧ L.RecvInv := by
  obtain ⟨chDescs, config, chDescs', config', s, r, hs, hr, rfl⟩ := h
  obtain ⟨hsidx, hsconf, hsch⟩ := NewMConnectionWithConfig_ok hs
  obtain ⟨hridx, -, hrch⟩ := NewMConnectionWithConfig_ok hr
  refine ⟨⟨hsidx, ?_, ?_, ?_, ?_, ?_⟩, ⟨hridx, le_refl _, ⟨0, le_refl _, ?_, ?_⟩, ?_, ?_⟩⟩
  · intro i ch hch _
    obtain ⟨h₁, h₂, -⟩ := hsch ch (List.mem_of_getElem? hch)
    exact ⟨h₁, h₂⟩
  · intro chID i ch hl
    obtain ⟨h₁, h₂, h₃, -⟩ := hsch ch (MConnection.mem_of_lookup hl)
    refine ⟨fun _ => rfl, ?_, by simp [h₃]⟩
    simpa [undelivered, h₁, h₂] using DropsOnly.refl (p := List.isEmpty) []
  · intro chID _
    simp
  · intro ch hch
    rw [(hsch ch hch).2.2.2.2, ← hsconf]
    rfl
  · intro m hm
    simp at hm
  · intro chID
    simp
  · intro _
    refine ⟨rfl, fun chID => ?_⟩
    unfold MConnection.field
    cases hl : r.Start.lookup chID with
    | none => rfl
    | some ich => exact (hrch ich.2 (MConnection.mem_of_lookup hl)).2.2.2.1
  · intro ch hch
    exact .inl (hrch ch hch).2.2.2.1
  · intro d hd
    simp at hd

theorem Step.inv {L L' : Link} (hs : Step L L') (h : L.SenderInv ∧ L.RecvInv) :
    L'.SenderInv ∧ L'.RecvInv := by
  obtain ⟨hS, hR⟩ := h
  cases hs with
  | send chID m => exact ⟨hS.queueOn _ (fun _ _ => rfl) chID m, hR.extend rfl rfl rfl [] (by simp)⟩
  | trySend chID m => exact ⟨hS.queueOn _ (fun _ _ => rfl) chID m, hR.extend rfl rfl rfl [] (by simp)⟩
  | sendPacketMsg P => exact ⟨hS.sendPacketMsg P, hR.extend rfl rfl rfl _ rfl⟩
  | ping => exact ⟨hS.appendControl .ping (.inl rfl), hR.extend rfl rfl rfl _ rfl⟩
  | pong => exact ⟨hS.appendControl .pong (.inr rfl), hR.extend rfl rfl rfl _ rfl⟩
  | recv p r hrun hp hr => exact ⟨hS.congr rfl rfl rfl, hR.recv hrun hp hr⟩
  | recvError p err hrun hp _ =>
    have hlt := (List.getElem?_eq_some_iff.mp hp).1
    exact ⟨hS.congr rfl rfl rfl, hR.stop rfl (Nat.le_succ _) hlt rfl rfl⟩
  | stopSender => exact ⟨hS.stop, hR.extend rfl rfl rfl [] (by simp)⟩
  | stopReceiver => exact ⟨hS.congr rfl rfl rfl, hR.stop rfl le_rfl hR.read_le rfl rfl⟩

theorem Reachable.inv {L : Link} (h : L.Reachable) : L.SenderInv ∧ L.RecvInv := by
  unfold Reachable at h
  exact h.invariant (fun _ hi => Initial.inv hi) (fun _ _ _ hinv hs => hs.inv hinv)

theorem SenderInv.lossy_field {L : Link} (h : L.SenderInv) (chID : UInt8) :
    DropsOnly List.isEmpty (on chID L.accepted)
      (undelivered [] (pieces chID L.stream) (L.sender.field chID (·.sending) [])
        (L.sender.field chID (·.sendQueue) [])) := by
  cases hl : L.sender.lookup chID with
  | none =>
    obtain ⟨ha, hp⟩ := h.absent chID hl
    simpa [field_of_none hl, ha, hp, undelivered] using DropsOnly.refl (p := List.isEmpty) []
  | some r =>
    obtain ⟨i, ch⟩ := r
    simpa [field_of_lookup hl] using (h.chan chID i ch hl).lossy

/-- Delivery over one connection: in every reachable state, on every channel, the messages
delivered followed by those in transit are the messages accepted with some empty ones left out,
in order; when the receiving end has stopped, what it delivered is still, up to left-out empty
messages, the first of the messages accepted. Nothing is reordered, duplicated, altered or
invented, and only an empty message can be lost. -/
theorem reachable_delivery {L : Link} (h : L.Reachable) (chID : UInt8) :
    ∃ rest, DropsOnly List.isEmpty (on chID L.accepted) (on chID L.delivered ++ rest) ∧
      (L.receiver.running = true → rest = L.inTransit chID) := by
  obtain ⟨hS, hR⟩ := h.inv
  obtain ⟨k, -, hdel, hrun⟩ := hR.rebuilt
  have hlossy := hS.lossy_field chID
  -- cut what the sending end keeps where the receiving end has read
  rw [← List.take_append_drop k L.stream, pieces_append, undelivered_append, ← hdel] at hlossy
  refine ⟨_, hlossy, fun hr => ?_⟩
  obtain ⟨rfl, hacc⟩ := hrun hr
  rw [inTransit, hacc]

theorem reachable_delivery_sample :
    ∃ rest, DropsOnly List.isEmpty (on 1 (sample 1 [7]).accepted) (on 1 (sample 1 [7]).delivered ++ rest) ∧
      ((sample 1 [7]).receiver.running = true → rest = (sample 1 [7]).inTransit 1) :=
  reachable_delivery (sample_reachable 1 [7]) 1

theorem CanSend_of_lookup {c : MConnection} {chID : UInt8} {i : Nat} {ch : Channel}
    (hl : c.lookup chID = some (i, ch)) :
    c.CanSend chID = true ↔ c.running = true ∧ ch.sendQueueSize < 1 := by
  unfold MConnection.CanSend
  rw [hl]
  cases c.running
  · simp
  · simp only [Bool.true_eq_false, if_false, Channel.canSend, Channel.loadSendQueueSize,
      defaultSendQueueCapacity, true_and]
    exact decide_eq_true_iff

/-- The counter `canSend` reads is an `int32`: in every reachable state a channel's
`sendQueueSize` is, wrapped onto `int32`, the number `n` of messages queued, plus one while a
message is being sent, plus the accepted messages that were lost (neither delivered, in transit
nor queued). So `CanSend` holds exactly when the connection runs and `n` is a multiple of `2^32`
or has wrapped the counter below zero. While `n` is below `2^31` that is when the channel holds
nothing and has lost nothing: a channel that has lost an empty message does not report that it
can send, even with its queue empty, until `2^31` of them wrap its counter. -/
theorem reachable_sendQueueSize {L : Link} (h : L.Reachable) {chID : UInt8} {i : Nat} {ch : Channel}
    (hl : L.sender.lookup chID = some (i, ch)) :
    let n : Nat := ch.sendQueue.length + (if ch.sending = [] then 0 else 1) +
      ((on chID L.accepted).length -
        (undelivered [] (pieces chID L.stream) ch.sending ch.sendQueue).length)
    ch.sendQueueSize = wrap32 n ∧
      (L.sender.CanSend chID = true ↔
        L.sender.running = true ∧ (n % 2 ^ 32 = 0 ∨ 2 ^ 31 ≤ n % 2 ^ 32)) ∧
      (n < 2 ^ 31 → (L.sender.CanSend chID = true ↔ L.sender.running = true ∧
        ch.sendQueue = [] ∧ ch.sending = [] ∧
        (undelivered [] (pieces chID L.stream) ch.sending ch.sendQueue).length =
          (on chID L.accepted).length)) := by
  intro n
  have hinv := h.inv.1.chan chID i ch hl
  have hle := hinv.lossy.length_le
  -- what is accepted and not completed by an `EOF` is what is queued, sent or lost
  have hn : ((on chID L.accepted).length : Int) - (reassemble [] (pieces chID L.stream)).1.length =
      n := by
    by_cases hs : ch.sending = [] <;> simp [n, undelivered, hs] at hle ⊢ <;> omega
  have hsize : ch.sendQueueSize = wrap32 n := by rw [hinv.count, hn]
  have hcan : L.sender.CanSend chID = true ↔
      L.sender.running = true ∧ (n % 2 ^ 32 = 0 ∨ 2 ^ 31 ≤ n % 2 ^ 32) := by
    rw [CanSend_of_lookup hl, hsize]
    exact and_congr_right fun _ => by unfold wrap32; omega
  refine ⟨hsize, hcan, fun hlt => ?_⟩
  have hzero : (n % 2 ^ 32 = 0 ∨ 2 ^ 31 ≤ n % 2 ^ 32) ↔ n = 0 := by omega
  rw [hcan, hzero]
  refine and_congr_right fun _ => ?_
  by_cases hs : ch.sending = []
  · -- nothing is being sent: `n` counts the queue and what was lost
    simp [n, undelivered, hs] at hle ⊢
    omega
  · simp [n, hs]

theorem reachable_sendQueueSize_sample : ∃ i ch, (sample 1 [7]).sender.lookup 1 = some (i, ch) ∧
    let n : Nat := ch.sendQueue.length + (if ch.sending = [] then 0 else 1) +
      ((on 1 (sample 1 [7]).accepted).length -
        (undelivered [] (pieces 1 (sample 1 [7]).stream) ch.sending ch.sendQueue).length)
    ch.sendQueueSize = wrap32 n ∧
      ((sample 1 [7]).sender.CanSend 1 = true ↔
        (sample 1 [7]).sender.running = true ∧ (n % 2 ^ 32 = 0 ∨ 2 ^ 31 ≤ n % 2 ^ 32)) ∧
      (n < 2 ^ 31 → ((sample 1 [7]).sender.CanSend 1 = true ↔ (sample 1 [7]).sender.running = true ∧
        ch.sendQueue = [] ∧ ch.sending = [] ∧
        (undelivered [] (pieces 1 (sample 1 [7]).stream) ch.sending ch.sendQueue).length =
          (on 1 (sample 1 [7]).accepted).length)) :=
  ⟨0, { sampleChannel 1 with sendQueue := [[7]], sendQueueSize := 1 }, rfl,
    reachable_sendQueueSize (sample_reachable 1 [7]) rfl⟩

theorem SenderInv.pieces_empty {L : Link} (hS : L.SenderInv)
    (h0 : L.sender.config.MaxPacketMsgPayloadSize = 0) {ps : List Packet} (hps : ∀ p ∈ ps, p ∈ L.stream)
    (chID : UInt8) : ∀ x ∈ pieces chID ps, x.1 = [] := by
  intro x hx
  obtain ⟨p, hp, hpx⟩ := List.mem_filterMap.mp hx
  cases p with
  | ping => simp [piece] at hpx
  | pong => simp [piece] at hpx
  | msg m =>
    simp only [piece] at hpx
    split_ifs at hpx
    cases hpx
    have := hS.bytes m (hps _ hp)
    rw [h0] at this
    exact List.eq_nil_of_length_eq_zero (Nat.le_zero.mp this)

/-- With `MaxPacketMsgPayloadSize` 0, which the p2p configuration accepts, every packet is empty:
in every reachable state every message handed to `onReceive` is empty. -/
theorem reachable_zero_payload {L : Link} (h : L.Reachable)
    (h0 : L.sender.config.MaxPacketMsgPayloadSize = 0) : ∀ d ∈ L.delivered, d.2 = [] := by
  obtain ⟨hS, hR⟩ := h.inv
  obtain ⟨k, -, hdel, -⟩ := hR.rebuilt
  intro d hd
  have hmem : d.2 ∈ on d.1 L.delivered := List.mem_map.mpr ⟨d, List.mem_filter.mpr ⟨hd, by simp⟩, rfl⟩
  rw [hdel] at hmem
  have hempty : ∀ x ∈ pieces d.1 (L.stream.take k), x.1 = [] :=
    hS.pieces_empty h0 (fun _ hp => List.mem_of_mem_take hp) d.1
  exact (reassemble_of_empty hempty).1 _ hmem

theorem reachable_zero_payload_sample :
    (sample 0 [7]).sender.config.MaxPacketMsgPayloadSize = 0 ∧ ∀ d ∈ (sample 0 [7]).delivered, d.2 = [] :=
  ⟨rfl, reachable_zero_payload (sample_reachable 0 [7]) rfl⟩

end Link

end Dgrid.P2p.Conn
