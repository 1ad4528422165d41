import Dgrid.Go.Basic
import Dgrid.Go.Bytes
import Dgrid.Lib.GoMap

/-! The multiplexed connection of p2p/conn/connection.go. Each channel queues the messages
`Send` and `TrySend` accept; the send routine's `sendPacketMsg` loads every idle channel's next
message into `sending` and writes one packet, at most `MaxPacketMsgPayloadSize` bytes of it, from
one pending channel, marking the last packet of a message `EOF`; the receive routine appends the
payloads of a channel's packets in `recving` and hands the message to `onReceive` at the `EOF`.

Packets travel as values: their amino encoding and its size limit, the rate monitors, the flush,
ping and pong timers and the loggers are left out. `sendPacketMsg` picks the pending channel of
least `recentlySent/Priority`, a float32 ratio of statistics the model does not keep: the pick is
a `Picker`, any rule that picks a pending channel when there is one. -/

namespace Dgrid.P2p.Conn

open Go GoMap

/-- `ChannelDescriptor`. -/
structure ChannelDescriptor where
  ID : UInt8
  Priority : Int
  SendQueueCapacity : Int
  RecvBufferCapacity : Int
  RecvMessageCapacity : Int
deriving DecidableEq, Repr

def defaultMaxPacketMsgPayloadSize : Nat := 1024
def numBatchPacketMsgs : Nat := 10
def defaultSendQueueCapacity : Int := 1
def defaultRecvBufferCapacity : Int := 4096
def defaultRecvMessageCapacity : Int := 22020096

def ChannelDescriptor.FillDefaults (chDesc : ChannelDescriptor) : ChannelDescriptor :=
  { chDesc with
    SendQueueCapacity :=
      if chDesc.SendQueueCapacity = 0 then defaultSendQueueCapacity else chDesc.SendQueueCapacity
    RecvBufferCapacity :=
      if chDesc.RecvBufferCapacity = 0 then defaultRecvBufferCapacity else chDesc.RecvBufferCapacity
    RecvMessageCapacity :=
      if chDesc.RecvMessageCapacity = 0 then defaultRecvMessageCapacity
      else chDesc.RecvMessageCapacity }

/-- `MConnConfig`: the payload size, which the p2p configuration's `Validate` keeps
non-negative, and the two durations `NewMConnectionWithConfig` compares. -/
structure MConnConfig where
  MaxPacketMsgPayloadSize : Nat
  PingInterval : Int
  PongTimeout : Int
deriving DecidableEq, Repr

/-- `PacketMsg`. -/
structure PacketMsg where
  ChannelID : UInt8
  EOF : UInt8
  Bytes : Bytes
deriving DecidableEq, Repr

/-- `Packet`: `PacketPing`, `PacketPong` and `PacketMsg`. -/
inductive Packet where
  | ping
  | pong
  | msg (p : PacketMsg)
deriving DecidableEq, Repr

/-- The errors that stop the receive routine. -/
inductive ConnError where
  /-- `"Received message exceeds available capacity: %v < %v"` -/
  | exceedsCapacity (recvCap recvReceived : Int)
  /-- `"Unknown channel %X"` -/
  | unknownChannel (chID : UInt8)
deriving DecidableEq, Repr

/-- `Channel`, without `conn`, `recentlySent` and the logger; `sendQueue` is the buffer of the Go
channel, of capacity `desc.SendQueueCapacity`, and `sendQueueSize` the `int32` that
`atomic.AddInt32` changes, wrapping. -/
structure Channel where
  desc : ChannelDescriptor
  sendQueue : List Bytes
  sendQueueSize : Int
  recving : Bytes
  sending : Bytes
  maxPacketMsgPayloadSize : Nat
deriving DecidableEq, Repr

/-- `newChannel(conn, desc)`, `conn` being read for its configuration only. -/
def newChannel (config : MConnConfig) (desc : ChannelDescriptor) : Result Channel :=
  let desc := desc.FillDefaults
  if desc.Priority ≤ 0 then
    .panic "Panicked on a Sanity Check: Channel default priority must be a positive integer"
  else if desc.SendQueueCapacity < 0 then .panic "makechan: size out of range"
  else if desc.RecvBufferCapacity < 0 then .panic "makeslice: cap out of range"
  else .ok ⟨desc, [], 0, [], [], config.MaxPacketMsgPayloadSize⟩

namespace Channel

/-- `ch.trySendBytes(bytes)`: the message is queued when the queue has room. -/
def trySendBytes (ch : Channel) (bytes : Bytes) : Channel × Bool :=
  if (ch.sendQueue.length : Int) < ch.desc.SendQueueCapacity then
    ({ ch with sendQueue := ch.sendQueue ++ [bytes], sendQueueSize := wrap32 (ch.sendQueueSize + 1) },
      true)
  else (ch, false)

/-- `ch.sendBytes(bytes)`. Its wait of up to `defaultSendTimeout` for room is the steps the other
routines take meanwhile; when it ends the message is queued if there is room, and the call fails
if there is none. -/
def sendBytes (ch : Channel) (bytes : Bytes) : Channel × Bool := ch.trySendBytes bytes

def loadSendQueueSize (ch : Channel) : Int := ch.sendQueueSize

/-- `ch.canSend()`: compared with `defaultSendQueueCapacity`, not with the channel's own. -/
def canSend (ch : Channel) : Bool := decide (ch.loadSendQueueSize < defaultSendQueueCapacity)

/-- `ch.isSendPending()`: an idle channel takes the next message of its queue. -/
def isSendPending (ch : Channel) : Channel × Bool :=
  if ch.sending.length = 0 then
    match ch.sendQueue with
    | [] => (ch, false)
    | m :: q => ({ ch with sending := m, sendQueue := q }, true)
  else (ch, true)

def nextPacketMsg (ch : Channel) : Channel × PacketMsg :=
  let maxSize := ch.maxPacketMsgPayloadSize
  let bytes := ch.sending.take (min maxSize ch.sending.length)
  if ch.sending.length ≤ maxSize then
    ({ ch with sending := [], sendQueueSize := wrap32 (ch.sendQueueSize - 1) },
      ⟨ch.desc.ID, 0x01, bytes⟩)
  else
    ({ ch with sending := ch.sending.drop (min maxSize ch.sending.length) },
      ⟨ch.desc.ID, 0x00, bytes⟩)

/-- `ch.writePacketMsgTo(w)`: the packet written; the byte count added to `recentlySent` is left
out. -/
def writePacketMsgTo (ch : Channel) : Channel × Packet :=
  (ch.nextPacketMsg.1, .msg ch.nextPacketMsg.2)

/-- `ch.recvPacketMsg(packet)`: the message completed by an `EOF` packet. -/
def recvPacketMsg (ch : Channel) (packet : PacketMsg) : Except ConnError (Channel × Option Bytes) :=
  let recvCap := ch.desc.RecvMessageCapacity
  let recvReceived : Int := ch.recving.length + packet.Bytes.length
  if recvCap < recvReceived then .error (.exceedsCapacity recvCap recvReceived)
  else
    let recving := ch.recving ++ packet.Bytes
    if packet.EOF = 0x01 then .ok ({ ch with recving := [] }, some recving)
    else .ok ({ ch with recving := recving }, none)

end Channel

/-- `MConnection`: its channels in the order of their descriptors, the map `channelsIdx` from an
ID to the position of its channel, the configuration, and whether it runs. -/
structure MConnection where
  channels : List Channel
  channelsIdx : Map UInt8 Nat
  config : MConnConfig
  running : Bool

/-- The loop of `NewMConnectionWithConfig` that fills `channelsIdx`: a later channel of an ID
replaces an earlier one. -/
def indexChannels (channels : List Channel) : Map UInt8 Nat :=
  channels.zipIdx.foldl (fun idx p => idx.insert p.1.desc.ID p.2) ∅

def NewMConnectionWithConfig (chDescs : List ChannelDescriptor) (config : MConnConfig) :
    Result MConnection :=
  if config.PongTimeout ≥ config.PingInterval then
    .panic "pongTimeout must be less than pingInterval (otherwise, next ping will reset pong timer)"
  else do
    let channels ← chDescs.mapM (newChannel config)
    pure ⟨channels, indexChannels channels, config, false⟩

/-- The rule `sendPacketMsg` picks a channel by, given each channel as `isSendPending` leaves it
and whether it is pending: a pending one when there is one, `none` when there is none. -/
structure Picker where
  leastChannel : List (Channel × Bool) → Option Nat
  pending : ∀ swept i, leastChannel swept = some i → (swept[i]?).map Prod.snd = some true
  exhausted : ∀ swept, leastChannel swept = none → ∀ r ∈ swept, r.2 = false

namespace MConnection

/-- `c.Start()`: the service runs. The routines `OnStart` launches are steps of their own. -/
def Start (c : MConnection) : MConnection := { c with running := true }

/-- `c.stopForError(r)`, and `c.Stop()`: the service no longer runs. -/
def stopForError (c : MConnection) : MConnection := { c with running := false }

/-- The channel of `chID` and its position. -/
def lookup (c : MConnection) (chID : UInt8) : Option (Nat × Channel) :=
  match c.channelsIdx.lookup chID with
  | none => none
  | some i => c.channels[i]?.map (i, ·)

/-- `Send` and `TrySend`, queueing on the channel with `enqueue`. -/
def queueOn (enqueue : Channel → Bytes → Channel × Bool) (c : MConnection) (chID : UInt8)
    (msgBytes : Bytes) : MConnection × Bool :=
  if c.running = false then (c, false)
  else match c.lookup chID with
    | none => (c, false)
    | some (i, ch) =>
      ({ c with channels := c.channels.set i (enqueue ch msgBytes).1 }, (enqueue ch msgBytes).2)

def Send (c : MConnection) (chID : UInt8) (msgBytes : Bytes) : MConnection × Bool :=
  queueOn Channel.sendBytes c chID msgBytes

def TrySend (c : MConnection) (chID : UInt8) (msgBytes : Bytes) : MConnection × Bool :=
  queueOn Channel.trySendBytes c chID msgBytes

def CanSend (c : MConnection) (chID : UInt8) : Bool :=
  if c.running = false then false
  else match c.lookup chID with
    | none => false
    | some (_, ch) => ch.canSend

/-- `c.sendPacketMsg()`: the packet written, and whether the channels were exhausted. -/
def sendPacketMsg (P : Picker) (c : MConnection) : MConnection × List Packet × Bool :=
  let swept := c.channels.map Channel.isSendPending
  let channels := swept.map Prod.fst
  match P.leastChannel swept with
  | none => ({ c with channels }, [], true)
  | some i =>
    match channels[i]? with
    | none => ({ c with channels }, [], true)
    | some ch => ({ c with channels := channels.set i ch.writePacketMsgTo.1 },
        [ch.writePacketMsgTo.2], false)

/-- The loop of `c.sendSomePacketMsgs()`, with `n` calls of `sendPacketMsg` left. -/
def sendBatch (P : Picker) : Nat → MConnection → MConnection × List Packet × Bool
  | 0, c => (c, [], false)
  | n + 1, c =>
    if (c.sendPacketMsg P).2.2 then c.sendPacketMsg P
    else
      ((sendBatch P n (c.sendPacketMsg P).1).1,
        (c.sendPacketMsg P).2.1 ++ (sendBatch P n (c.sendPacketMsg P).1).2.1,
        (sendBatch P n (c.sendPacketMsg P).1).2.2)

/-- `c.sendSomePacketMsgs()`; the throttling of `sendMonitor` is timing only. -/
def sendSomePacketMsgs (P : Picker) (c : MConnection) : MConnection × List Packet × Bool :=
  sendBatch P numBatchPacketMsgs c

/-- The loop of `c.FlushStop()` that calls `sendSomePacketMsgs` until the channels are exhausted,
for at most `fuel` rounds: the connection and the packets written, `none` if the rounds run
out. -/
def flushLoop (P : Picker) : Nat → MConnection → Option (MConnection × List Packet)
  | 0, _ => none
  | fuel + 1, c =>
    if (c.sendSomePacketMsgs P).2.2 then some ((c.sendSomePacketMsgs P).1, (c.sendSomePacketMsgs P).2.1)
    else (flushLoop P fuel (c.sendSomePacketMsgs P).1).map
      fun r => (r.1, (c.sendSomePacketMsgs P).2.1 ++ r.2)

/-- One round of `c.recvRoutine()` on the packet read: the connection and the message handed to
`onReceive`, or the error the routine stops the connection with. -/
def recvPacket (c : MConnection) : Packet → Except ConnError (MConnection × Option (UInt8 × Bytes))
  | .ping => .ok (c, none)
  | .pong => .ok (c, none)
  | .msg pkt =>
    match c.lookup pkt.ChannelID with
    | none => .error (.unknownChannel pkt.ChannelID)
    | some (i, ch) =>
      match ch.recvPacketMsg pkt with
      | .error err => .error err
      | .ok r => .ok ({ c with channels := c.channels.set i r.1 }, r.2.map (pkt.ChannelID, ·))

end MConnection

end Dgrid.P2p.Conn
