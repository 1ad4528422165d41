import Dgrid.P2p.Connection

/-! What each routine of a connection does, one lemma for each, so that the proofs about whole
runs never unfold them: the outcomes of `isSendPending`, `nextPacketMsg` and `recvPacketMsg`, the
channel a lookup finds, and the channels and packets `sendPacketMsg` leaves. -/

namespace Dgrid.P2p.Conn

open Go GoMap

namespace Channel

variable (ch : Channel)

theorem isSendPending_cases :
    (ch.sending ≠ [] ∧ ch.isSendPending = (ch, true)) ∨
    (ch.sending = [] ∧ ch.sendQueue = [] ∧ ch.isSendPending = (ch, false)) ∨
    (∃ m q, ch.sending = [] ∧ ch.sendQueue = m :: q ∧
      ch.isSendPending = ({ ch with sending := m, sendQueue := q }, true)) := by
  unfold isSendPending
  by_cases hs : ch.sending = []
  · rw [if_pos (by simp [hs])]
    cases hq : ch.sendQueue with
    | nil => exact .inr (.inl ⟨hs, rfl, rfl⟩)
    | cons m q => exact .inr (.inr ⟨m, q, hs, rfl, rfl⟩)
  · rw [if_neg (by simpa using hs)]
    exact .inl ⟨hs, rfl⟩

theorem isSendPending_frame :
    ch.isSendPending.1.desc = ch.desc ∧ ch.isSendPending.1.sendQueueSize = ch.sendQueueSize ∧
      ch.isSendPending.1.recving = ch.recving ∧
      ch.isSendPending.1.maxPacketMsgPayloadSize = ch.maxPacketMsgPayloadSize := by
  rcases ch.isSendPending_cases with ⟨-, h⟩ | ⟨-, -, h⟩ | ⟨m, q, -, -, h⟩ <;> simp [h]

theorem isSendPending_snd : ch.isSendPending.2 = false ↔ ch.sending = [] ∧ ch.sendQueue = [] := by
  rcases ch.isSendPending_cases with ⟨hs, h⟩ | ⟨hs, hq, h⟩ | ⟨m, q, hs, hq, h⟩ <;> simp_all

theorem isSendPending_of_idle (hs : ch.sending = []) (hq : ch.sendQueue = []) :
    ch.isSendPending = (ch, false) := by
  rcases ch.isSendPending_cases with ⟨hs', -⟩ | ⟨-, -, e⟩ | ⟨m, q, -, hq', -⟩
  · exact absurd hs hs'
  · exact e
  · rw [hq] at hq'
    cases hq'

theorem nextPacketMsg_eof (h : ch.sending.length ≤ ch.maxPacketMsgPayloadSize) :
    ch.nextPacketMsg = ({ ch with sending := [], sendQueueSize := wrap32 (ch.sendQueueSize - 1) },
      ⟨ch.desc.ID, 0x01, ch.sending⟩) := by
  simp [nextPacketMsg, h]

theorem nextPacketMsg_more (h : ch.maxPacketMsgPayloadSize < ch.sending.length) :
    ch.nextPacketMsg = ({ ch with sending := ch.sending.drop ch.maxPacketMsgPayloadSize },
      ⟨ch.desc.ID, 0x00, ch.sending.take ch.maxPacketMsgPayloadSize⟩) := by
  simp [nextPacketMsg, Nat.not_le.mpr h, Nat.min_eq_left h.le]

theorem nextPacketMsg_frame :
    ch.nextPacketMsg.1.desc = ch.desc ∧ ch.nextPacketMsg.1.sendQueue = ch.sendQueue ∧
      ch.nextPacketMsg.1.recving = ch.recving ∧
      ch.nextPacketMsg.1.maxPacketMsgPayloadSize = ch.maxPacketMsgPayloadSize ∧
      ch.nextPacketMsg.2.ChannelID = ch.desc.ID ∧
      ch.nextPacketMsg.2.Bytes.length ≤ ch.maxPacketMsgPayloadSize := by
  rcases Nat.lt_or_ge ch.maxPacketMsgPayloadSize ch.sending.length with h | h
  · simp [nextPacketMsg_more ch h]
  · simp [nextPacketMsg_eof ch h, h]

theorem trySendBytes_cases (bytes : Bytes) :
    ((ch.sendQueue.length : Int) < ch.desc.SendQueueCapacity ∧
      ch.trySendBytes bytes =
        ({ ch with
          sendQueue := ch.sendQueue ++ [bytes], sendQueueSize := wrap32 (ch.sendQueueSize + 1) },
          true)) ∨
    ch.trySendBytes bytes = (ch, false) := by
  unfold trySendBytes
  split_ifs with h
  · exact .inl ⟨h, rfl⟩
  · exact .inr rfl

theorem recvPacketMsg_ok {packet : PacketMsg} {r : Channel × Option Bytes}
    (h : ch.recvPacketMsg packet = .ok r) :
    (ch.recving.length + packet.Bytes.length : Int) ≤ ch.desc.RecvMessageCapacity ∧
      (packet.EOF = 0x01 ∧ r = ({ ch with recving := [] }, some (ch.recving ++ packet.Bytes)) ∨
       packet.EOF ≠ 0x01 ∧ r = ({ ch with recving := ch.recving ++ packet.Bytes }, none)) := by
  simp only [recvPacketMsg] at h
  split_ifs at h with hcap heof
  · exact ⟨Int.not_lt.mp hcap, .inl ⟨heof, (Except.ok.inj h).symm⟩⟩
  · exact ⟨Int.not_lt.mp hcap, .inr ⟨heof, (Except.ok.inj h).symm⟩⟩

end Channel

theorem mapM_ok_mem {α β : Type} {f : α → Result β} :
    ∀ {l : List α} {l' : List β}, l.mapM f = .ok l' → ∀ y ∈ l', ∃ x ∈ l, f x = .ok y := by
  intro l
  induction l with
  | nil =>
    intro l' h
    simp only [List.mapM_nil, Result.pure_eq, Result.ok.injEq] at h
    simp [← h]
  | cons a l ih =>
    intro l' h y hy
    rw [List.mapM_cons] at h
    obtain ⟨b, hb, h⟩ := Result.bind_eq_ok.mp h
    obtain ⟨bs, hbs, h⟩ := Result.bind_eq_ok.mp h
    simp only [Result.pure_eq, Result.ok.injEq] at h
    subst h
    rcases List.mem_cons.mp hy with rfl | hy
    · exact ⟨a, List.mem_cons_self, hb⟩
    · obtain ⟨x, hx, hfx⟩ := ih hbs y hy
      exact ⟨x, List.mem_cons_of_mem a hx, hfx⟩

theorem newChannel_ok {config : MConnConfig} {desc : ChannelDescriptor} {ch : Channel}
    (h : newChannel config desc = .ok ch) :
    ch.sending = [] ∧ ch.sendQueue = [] ∧ ch.sendQueueSize = 0 ∧ ch.recving = [] ∧
      ch.maxPacketMsgPayloadSize = config.MaxPacketMsgPayloadSize := by
  simp only [newChannel] at h
  split_ifs at h
  cases h
  exact ⟨rfl, rfl, rfl, rfl, rfl⟩

namespace MConnection

/-- Every entry of `channelsIdx` is the position of a channel of its ID. -/
def IdxOk (c : MConnection) : Prop :=
  ∀ chID i, c.channelsIdx.lookup chID = some i → ∃ ch, c.channels[i]? = some ch ∧ ch.desc.ID = chID

theorem lookup_eq_some {c : MConnection} {chID : UInt8} {i : Nat} {ch : Channel} :
    c.lookup chID = some (i, ch) ↔ c.channelsIdx.lookup chID = some i ∧ c.channels[i]? = some ch := by
  unfold lookup
  cases c.channelsIdx.lookup chID with
  | none => simp
  | some j =>
    simp only [Option.some.injEq]
    constructor
    · intro h
      obtain ⟨ch', h', he⟩ := Option.map_eq_some_iff.mp h
      simp only [Prod.mk.injEq] at he
      obtain ⟨rfl, rfl⟩ := he
      exact ⟨rfl, h'⟩
    · rintro ⟨rfl, h⟩
      simp [h]

theorem mem_of_lookup {c : MConnection} {chID : UInt8} {i : Nat} {ch : Channel}
    (h : c.lookup chID = some (i, ch)) : ch ∈ c.channels :=
  List.mem_of_getElem? (lookup_eq_some.mp h).2

theorem IdxOk.id_eq {c : MConnection} (hc : c.IdxOk) {chID : UInt8} {i : Nat} {ch : Channel}
    (h : c.lookup chID = some (i, ch)) : ch.desc.ID = chID := by
  obtain ⟨hi, hch⟩ := lookup_eq_some.mp h
  obtain ⟨ch', h', hid⟩ := hc chID i hi
  rw [hch] at h'
  cases h'
  exact hid

theorem IdxOk.ne_of_lookup {c : MConnection} (hc : c.IdxOk) {chID chID' : UInt8} {i j : Nat}
    {ch ch' : Channel} (h : c.lookup chID = some (i, ch)) (h' : c.lookup chID' = some (j, ch'))
    (hne : chID ≠ chID') : i ≠ j := by
  rintro rfl
  have e := (lookup_eq_some.mp h).2.symm.trans (lookup_eq_some.mp h').2
  cases e
  exact hne ((hc.id_eq h).symm.trans (hc.id_eq h'))

theorem IdxOk.set {c : MConnection} (hc : c.IdxOk) (i : Nat) (ch : Channel)
    (hid : ∀ ch₀, c.channels[i]? = some ch₀ → ch.desc.ID = ch₀.desc.ID) :
    ({ c with channels := c.channels.set i ch } : MConnection).IdxOk := by
  intro chID j hj
  obtain ⟨ch₀, h₀, hid₀⟩ := hc chID j hj
  by_cases hij : i = j
  · subst hij
    refine ⟨ch, ?_, (hid ch₀ h₀).trans hid₀⟩
    simp [(List.getElem?_eq_some_iff.mp h₀).1]
  · exact ⟨ch₀, by simpa [List.getElem?_set, hij] using h₀, hid₀⟩

theorem indexChannels_idxOk (channels : List Channel) (config : MConnConfig) (running : Bool) :
    (⟨channels, indexChannels channels, config, running⟩ : MConnection).IdxOk := by
  -- the fold inserts pairs of `zipIdx`, each a channel and its position
  have key : ∀ (l : List (Channel × Nat)) (m : Map UInt8 Nat),
      (∀ chID i, m.lookup chID = some i → ∃ ch, channels[i]? = some ch ∧ ch.desc.ID = chID) →
      (∀ p ∈ l, channels[p.2]? = some p.1) →
      ∀ chID i, (l.foldl (fun idx p => idx.insert p.1.desc.ID p.2) m).lookup chID = some i →
        ∃ ch, channels[i]? = some ch ∧ ch.desc.ID = chID := by
    intro l
    induction l with
    | nil => exact fun m hm _ => hm
    | cons p l ih =>
      intro m hm hl
      refine ih _ ?_ (fun q hq => hl q (List.mem_cons_of_mem p hq))
      intro chID i h
      rcases lookup_insert_eq_some.mp h with ⟨rfl, rfl⟩ | ⟨-, h⟩
      · exact ⟨p.1, hl p (List.mem_cons_self), rfl⟩
      · exact hm chID i h
  exact key _ ∅ (by simp) (fun p hp => List.mem_zipIdx_iff_getElem?.mp hp)

variable (P : Picker) (c : MConnection)

theorem sendPacketMsg_cases :
    (c.sendPacketMsg P = ({ c with channels := c.channels.map (·.isSendPending.1) }, [], true) ∧
      ∀ ch ∈ c.channels, ch.isSendPending.2 = false) ∨
    ∃ i ch, c.channels[i]? = some ch ∧ ch.isSendPending.2 = true ∧
      c.sendPacketMsg P = ({ c with
          channels := ((c.channels.map (·.isSendPending.1)).set i ch.isSendPending.1.nextPacketMsg.1) },
        [.msg ch.isSendPending.1.nextPacketMsg.2], false) := by
  unfold sendPacketMsg
  simp only [List.map_map]
  cases hp : P.leastChannel (c.channels.map Channel.isSendPending) with
  | none =>
    refine .inl ⟨rfl, fun ch hch => ?_⟩
    exact P.exhausted _ hp _ (List.mem_map_of_mem hch)
  | some i =>
    have hpend := P.pending _ i hp
    simp only [List.getElem?_map] at hpend
    cases hi : c.channels[i]? with
    | none => simp [hi] at hpend
    | some ch =>
      simp only [hi, Option.map_some, Option.some.injEq] at hpend
      refine .inr ⟨i, ch, hi, hpend, ?_⟩
      simp [List.getElem?_map, hi, Channel.writePacketMsgTo, Function.comp_def]

theorem sendPacketMsg_frame :
    (c.sendPacketMsg P).1.channelsIdx = c.channelsIdx ∧ (c.sendPacketMsg P).1.config = c.config ∧
      (c.sendPacketMsg P).1.running = c.running ∧
      (c.sendPacketMsg P).1.channels.length = c.channels.length := by
  rcases sendPacketMsg_cases P c with ⟨h, -⟩ | ⟨i, ch, -, -, h⟩ <;> simp [h]


theorem lookup_congr {c c' : MConnection} (hidx : c'.channelsIdx = c.channelsIdx)
    (g : Nat → Channel → Channel) (hg : ∀ j, c'.channels[j]? = (c.channels[j]?).map (g j))
    (chID : UInt8) : c'.lookup chID = (c.lookup chID).map fun r => (r.1, g r.1 r.2) := by
  unfold lookup
  rw [hidx]
  cases c.channelsIdx.lookup chID with
  | none => rfl
  | some j => cases h : c.channels[j]? <;> simp [hg, h]

theorem IdxOk.congr {c c' : MConnection} (hc : c.IdxOk) (hidx : c'.channelsIdx = c.channelsIdx)
    (g : Nat → Channel → Channel) (hg : ∀ j, c'.channels[j]? = (c.channels[j]?).map (g j))
    (hdesc : ∀ j ch, c.channels[j]? = some ch → (g j ch).desc = ch.desc) : c'.IdxOk := by
  intro chID i hi
  obtain ⟨ch, hch, hid⟩ := hc chID i (hidx ▸ hi)
  exact ⟨g i ch, by simp [hg, hch], by rw [hdesc i ch hch, hid]⟩

theorem getElem?_set_map {α : Type} {l : List α} {i : Nat} {a b : α} (h : l[i]? = some a) (j : Nat) :
    (l.set i b)[j]? = (l[j]?).map fun x => if j = i then b else x := by
  by_cases hij : j = i
  · subst hij
    simp [(List.getElem?_eq_some_iff.mp h).1]
  · simp [Ne.symm hij, hij]

theorem queueOn_cases (enqueue : Channel → Bytes → Channel × Bool)
    (henq : ∀ ch bytes, enqueue ch bytes = ch.trySendBytes bytes) (chID : UInt8) (msgBytes : Bytes) :
    (∃ i ch, c.running = true ∧ c.lookup chID = some (i, ch) ∧
      (ch.sendQueue.length : Int) < ch.desc.SendQueueCapacity ∧
      c.queueOn enqueue chID msgBytes = ({ c with channels := (c.channels.set i
        { ch with
          sendQueue := ch.sendQueue ++ [msgBytes], sendQueueSize := wrap32 (ch.sendQueueSize + 1) }) },
        true)) ∨
    c.queueOn enqueue chID msgBytes = (c, false) := by
  unfold queueOn
  by_cases hr : c.running = false
  · exact .inr (if_pos hr)
  · rw [if_neg hr]
    cases hl : c.lookup chID with
    | none => exact .inr rfl
    | some r =>
      obtain ⟨i, ch⟩ := r
      simp only [henq]
      rcases ch.trySendBytes_cases msgBytes with ⟨hcap, he⟩ | he
      · exact .inl ⟨i, ch, by simpa using hr, rfl, hcap, by simp [he]⟩
      · -- a full queue: the channel is written back unchanged
        obtain ⟨hi, rfl⟩ := List.getElem?_eq_some_iff.mp (lookup_eq_some.mp hl).2
        refine .inr ?_
        rw [he, List.set_getElem_self hi]

theorem recvPacket_ok {p : Packet} {r : MConnection × Option (UInt8 × Bytes)}
    (h : c.recvPacket p = .ok r) :
    ((p = .ping ∨ p = .pong) ∧ r = (c, none)) ∨
    ∃ pkt i ch ch' out, p = .msg pkt ∧ c.lookup pkt.ChannelID = some (i, ch) ∧
      ch.recvPacketMsg pkt = .ok (ch', out) ∧
      r = ({ c with channels := c.channels.set i ch' }, out.map (pkt.ChannelID, ·)) := by
  cases p with
  | ping => exact .inl ⟨.inl rfl, (Except.ok.inj h).symm⟩
  | pong => exact .inl ⟨.inr rfl, (Except.ok.inj h).symm⟩
  | msg pkt =>
    simp only [recvPacket] at h
    cases hl : c.lookup pkt.ChannelID with
    | none => simp [hl] at h
    | some ich =>
      obtain ⟨i, ch⟩ := ich
      cases hr : ch.recvPacketMsg pkt with
      | error err => simp [hl, hr] at h
      | ok q =>
        simp only [hl, hr, Except.ok.injEq] at h
        exact .inr ⟨pkt, i, ch, q.1, q.2, rfl, hl, hr, h.symm⟩

end MConnection

theorem NewMConnectionWithConfig_ok {chDescs : List ChannelDescriptor} {config : MConnConfig}
    {c : MConnection} (h : NewMConnectionWithConfig chDescs config = .ok c) :
    c.IdxOk ∧ c.config = config ∧ ∀ ch ∈ c.channels, ch.sending = [] ∧ ch.sendQueue = [] ∧
      ch.sendQueueSize = 0 ∧ ch.recving = [] ∧
      ch.maxPacketMsgPayloadSize = config.MaxPacketMsgPayloadSize := by
  unfold NewMConnectionWithConfig at h
  split_ifs at h
  obtain ⟨channels, hch, h⟩ := Result.bind_eq_ok.mp h
  simp only [Result.pure_eq, Result.ok.injEq] at h
  subst h
  refine ⟨MConnection.indexChannels_idxOk channels config false, rfl, fun ch hmem => ?_⟩
  obtain ⟨desc, -, hdesc⟩ := mapM_ok_mem hch ch hmem
  exact newChannel_ok hdesc

end Dgrid.P2p.Conn
