import Dgrid.P2p.SecretConnection
import Dgrid.Lib.Transition

/-! One direction of a pair of secret connections: the writing end, the pipe between them, a
`conn` that takes every write, and the reading end, over any interleaving of `Write` and `Read`
calls with buffers of any size. The bytes handed back are always a prefix of the bytes written,
all of them once the pipe and the buffer are drained; no call fails, and `Read` waits only when
nothing is left to read. -/

namespace Dgrid.P2p.Conn

open Go

/-- One direction of a pair of secret connections: the writing end, the bytes in the pipe, the
reading end, the bytes `Write` reported written and the bytes `Read` copied out. -/
structure SecretPipe where
  sender : SecretConnection
  pipe : Bytes
  receiver : SecretConnection
  written : Bytes
  delivered : Bytes

namespace SecretPipe

/-- Two ends built by `MakeSecretConnection` from different ephemeral keys and the same
Diffie-Hellman secret, nothing written. -/
def Initial (L : SecretPipe) : Prop :=
  ∃ hkdf locEphPub remEphPub dhSecret s r, locEphPub ≠ remEphPub ∧
    MakeSecretConnection hkdf locEphPub remEphPub dhSecret = .ok s ∧
    MakeSecretConnection hkdf remEphPub locEphPub dhSecret = .ok r ∧ L = ⟨s, [], r, [], []⟩

variable (aead : AEAD)

/-- A `Write` on the writing end, or a `Read` on the reading end that returns. -/
inductive Step : SecretPipe → SecretPipe → Prop
  | write (L : SecretPipe) (data : Bytes) :
    Step L
      { L with
        sender := (Write aead pipeWrite L.sender L.pipe data).1
        pipe := (Write aead pipeWrite L.sender L.pipe data).2.1
        written := L.written ++ data.take (Write aead pipeWrite L.sender L.pipe data).2.2.1 }
  | read (L : SecretPipe) (bufLen : Nat) (r : SecretConnection × Bytes × Bytes × Option SecretConnError) :
    Read aead L.receiver bufLen L.pipe = some r →
    Step L { L with receiver := r.1, pipe := r.2.2.1, delivered := L.delivered ++ r.2.1 }

def Reachable (L : SecretPipe) : Prop := Transition.Reachable Initial (Step aead) L

/-- The chunks written, of which the reading end has opened the first `opened`: the pipe holds the
others sealed under the nonces that follow, and the bytes copied out and buffered are those of
the chunks opened. -/
structure Frames (L : SecretPipe) (chunks : List Bytes) (opened : Nat) : Prop where
  opened_le : opened ≤ chunks.length
  bounded : ∀ c ∈ chunks, c.length ≤ dataMaxSize
  written_eq : L.written = chunks.flatten
  sendNonce_eq : L.sender.sendNonce = incrNonce^[chunks.length] (List.replicate aeadNonceSize 0)
  recvNonce_eq : L.receiver.recvNonce = incrNonce^[opened] (List.replicate aeadNonceSize 0)
  pipe_eq : L.pipe = sealFrames aead L.sender.sendSecret L.receiver.recvNonce (chunks.drop opened)
  delivered_eq : L.delivered ++ L.receiver.recvBuffer = (chunks.take opened).flatten

/-- The invariant: both ends hold the same key, of `aeadKeySize` bytes, and the frames agree. -/
structure Inv (L : SecretPipe) : Prop where
  key : L.receiver.recvSecret = L.sender.sendSecret
  keyLen : L.sender.sendSecret.length = aeadKeySize
  frames : ∃ chunks opened, L.Frames aead chunks opened

variable {aead}

theorem Frames.read_cases {L : SecretPipe} {chunks : List Bytes} {opened : Nat}
    (hf : L.Frames aead chunks opened) (hkey : L.receiver.recvSecret = L.sender.sendSecret)
    (hlen : L.sender.sendSecret.length = aeadKeySize) (bufLen : Nat) :
    (L.receiver.recvBuffer ≠ [] ∧ Read aead L.receiver bufLen L.pipe =
      some ({ L.receiver with recvBuffer := L.receiver.recvBuffer.drop bufLen },
        L.receiver.recvBuffer.take bufLen, L.pipe, none)) ∨
    (L.receiver.recvBuffer = [] ∧ chunks.drop opened = [] ∧ L.pipe = [] ∧
      Read aead L.receiver bufLen L.pipe = none) ∨
    (∃ c cs, L.receiver.recvBuffer = [] ∧ chunks.drop opened = c :: cs ∧
      Read aead L.receiver bufLen L.pipe =
        some (
          { L.receiver with
            recvNonce := incrNonce L.receiver.recvNonce
            recvBuffer := c.drop bufLen },
          c.take bufLen, sealFrames aead L.sender.sendSecret (incrNonce L.receiver.recvNonce) cs,
          none)) := by
  by_cases hb : L.receiver.recvBuffer = []
  · cases hd : chunks.drop opened with
    | nil =>
      have hp : L.pipe = [] := by rw [hf.pipe_eq, hd, sealFrames]
      exact .inr (.inl ⟨hb, rfl, hp, by rw [hp, Read_idle aead bufLen hb]⟩)
    | cons c cs =>
      have hc : c.length ≤ dataMaxSize := hf.bounded c (List.mem_of_mem_drop (by rw [hd]; simp))
      refine .inr (.inr ⟨c, cs, hb, rfl, ?_⟩)
      rw [hf.pipe_eq, hd, sealFrames, ← hkey, Read_frame aead bufLen hb (hkey ▸ hlen) hc]
  · exact .inl ⟨hb, Read_buffered aead bufLen hb L.pipe⟩

theorem Frames.write {L : SecretPipe} {chunks : List Bytes} {opened : Nat}
    (hf : L.Frames aead chunks opened) (hlen : L.sender.sendSecret.length = aeadKeySize)
    (data : Bytes) :
    SecretPipe.Frames aead
      { L with
        sender := (Write aead pipeWrite L.sender L.pipe data).1
        pipe := (Write aead pipeWrite L.sender L.pipe data).2.1
        written := L.written ++ data.take (Write aead pipeWrite L.sender L.pipe data).2.2.1 }
      (chunks ++ chunksOf data) opened := by
  have hle := hf.opened_le
  rw [Write_pipeWrite aead hlen]
  refine ⟨?_, ?_, ?_, ?_, hf.recvNonce_eq, ?_, ?_⟩
  · rw [List.length_append]
    omega
  · intro c hc
    rcases List.mem_append.mp hc with hc | hc
    · exact hf.bounded c hc
    · exact (chunksOf_bounds data c hc).2
  · simp [hf.written_eq, flatten_chunksOf]
  · dsimp only
    rw [hf.sendNonce_eq, ← Function.iterate_add_apply, List.length_append, Nat.add_comm]
  · dsimp only
    rw [hf.pipe_eq, List.drop_append_of_le_length hle, sealFrames_append, hf.recvNonce_eq,
      hf.sendNonce_eq, ← Function.iterate_add_apply, List.length_drop, Nat.sub_add_cancel hle]
  · dsimp only
    rw [List.take_append_of_le_length hle, hf.delivered_eq]

theorem Frames.buffered {L : SecretPipe} {chunks : List Bytes} {opened : Nat}
    (hf : L.Frames aead chunks opened) (bufLen : Nat) :
    SecretPipe.Frames aead
      { L with
        receiver := { L.receiver with recvBuffer := L.receiver.recvBuffer.drop bufLen }
        delivered := L.delivered ++ L.receiver.recvBuffer.take bufLen }
      chunks opened := by
  refine ⟨hf.opened_le, hf.bounded, hf.written_eq, hf.sendNonce_eq, hf.recvNonce_eq, hf.pipe_eq, ?_⟩
  dsimp only
  rw [List.append_assoc, List.take_append_drop, hf.delivered_eq]

theorem Frames.opened {L : SecretPipe} {chunks : List Bytes} {opened : Nat}
    (hf : L.Frames aead chunks opened) (hb : L.receiver.recvBuffer = []) {c : Bytes} {cs : List Bytes}
    (hd : chunks.drop opened = c :: cs) (bufLen : Nat) :
    SecretPipe.Frames aead
      { L with
        receiver :=
          { L.receiver with
            recvNonce := incrNonce L.receiver.recvNonce
            recvBuffer := c.drop bufLen }
        pipe := sealFrames aead L.sender.sendSecret (incrNonce L.receiver.recvNonce) cs
        delivered := L.delivered ++ c.take bufLen }
      chunks (opened + 1) := by
  have hget : chunks[opened]? = some c := by
    rw [← Nat.add_zero opened, ← List.getElem?_drop, hd]
    rfl
  have hlt : opened < chunks.length := (List.getElem?_eq_some_iff.mp hget).1
  refine ⟨hlt, hf.bounded, hf.written_eq, hf.sendNonce_eq, ?_, ?_, ?_⟩
  · dsimp only
    rw [hf.recvNonce_eq, Function.iterate_succ_apply']
  · dsimp only
    rw [← List.drop_drop, hd]
    rfl
  · -- the buffer was empty, so the bytes copied out were the chunks opened before
    have hdel := hf.delivered_eq
    rw [hb, List.append_nil] at hdel
    dsimp only
    rw [List.append_assoc, List.take_append_drop, hdel, List.take_add_one, hget]
    simp

/-- The bytes copied out, then those buffered, then the chunks not yet opened are the bytes
written; so the bytes copied out are a prefix of them. -/
theorem Frames.written_eq_delivered {L : SecretPipe} {chunks : List Bytes} {opened : Nat}
    (hf : L.Frames aead chunks opened) :
    L.written = L.delivered ++ (L.receiver.recvBuffer ++ (chunks.drop opened).flatten) := by
  rw [← List.append_assoc, hf.delivered_eq, hf.written_eq, ← List.flatten_append,
    List.take_append_drop]

theorem Step.inv {L L' : SecretPipe} (hs : Step aead L L') (h : L.Inv aead) : L'.Inv aead := by
  obtain ⟨hkey, hlen, chunks, opened, hf⟩ := h
  cases hs with
  | write data =>
    have hsend : (Write aead pipeWrite L.sender L.pipe data).1.sendSecret = L.sender.sendSecret := by
      rw [Write_pipeWrite aead hlen]
    exact ⟨hkey.trans hsend.symm, hsend ▸ hlen, _, _, hf.write hlen data⟩
  | read bufLen r hr =>
    rcases hf.read_cases hkey hlen bufLen with ⟨-, e⟩ | ⟨-, -, -, e⟩ | ⟨c, cs, hb, hd, e⟩
    · rw [e, Option.some.injEq] at hr
      subst hr
      exact ⟨hkey, hlen, _, _, hf.buffered bufLen⟩
    · rw [e] at hr
      cases hr
    · rw [e, Option.some.injEq] at hr
      subst hr
      exact ⟨hkey, hlen, _, _, hf.opened hb hd bufLen⟩

theorem Initial.inv {L : SecretPipe} (h : L.Initial) : L.Inv aead := by
  obtain ⟨hkdf, a, b, dhSecret, s, r, hne, hs, hr, rfl⟩ := h
  obtain ⟨hkey, -, hlen, -, -, hbuf, hsend, hrecv⟩ := MakeSecretConnection_pair hne hs hr
  refine ⟨hkey.symm, hlen, [], 0, le_rfl, by simp, rfl, hsend, hrecv, rfl, ?_⟩
  simp [hbuf]

theorem Reachable.inv {L : SecretPipe} (h : L.Reachable aead) : L.Inv aead := by
  unfold Reachable at h
  exact h.invariant (fun _ hi => Initial.inv hi) (fun _ _ _ hinv hs => hs.inv hinv)

/-- The byte stream of a secret connection, in every reachable state of one direction: the bytes
`Read` has copied out are a prefix of the bytes `Write` wrote, and all of them once the pipe and
the buffer are drained; `Read` waits exactly when both are empty and otherwise returns without
error; `Write` writes every byte without error. -/
theorem reachable_secretStream {L : SecretPipe} (h : L.Reachable aead) :
    L.delivered.IsPrefix L.written ∧
      (L.pipe = [] → L.receiver.recvBuffer = [] → L.delivered = L.written) ∧
      (∀ bufLen, Read aead L.receiver bufLen L.pipe = none ↔ L.pipe = [] ∧ L.receiver.recvBuffer = []) ∧
      (∀ bufLen r, Read aead L.receiver bufLen L.pipe = some r → r.2.2.2 = none) ∧
      ∀ data, (Write aead pipeWrite L.sender L.pipe data).2.2 = (data.length, none) := by
  obtain ⟨hkey, hlen, chunks, opened, hf⟩ := h.inv
  have hpipe : L.pipe = [] ↔ chunks.drop opened = [] := by rw [hf.pipe_eq, sealFrames_eq_nil]
  refine ⟨?_, fun hp hb => ?_, fun bufLen => ?_, fun bufLen r hr => ?_, fun data => ?_⟩
  · rw [hf.written_eq_delivered]
    exact List.prefix_append _ _
  · have hall : chunks.take opened = chunks :=
      List.take_of_length_le (List.drop_eq_nil_iff.mp (hpipe.mp hp))
    have hdel := hf.delivered_eq
    rw [hb, List.append_nil, hall, ← hf.written_eq] at hdel
    exact hdel
  · rcases hf.read_cases hkey hlen bufLen with ⟨hb, e⟩ | ⟨hb, -, hp, e⟩ | ⟨c, cs, hb, hd, e⟩
    · simp [e, hb]
    · rw [e]
      simp [hb, hp]
    · have hp : L.pipe ≠ [] := fun hp => by simp [hpipe.mp hp] at hd
      simp [e, hp]
  · rcases hf.read_cases hkey hlen bufLen with ⟨-, e⟩ | ⟨-, -, -, e⟩ | ⟨c, cs, -, -, e⟩
    · rw [e, Option.some.injEq] at hr
      rw [← hr]
    · rw [e] at hr
      cases hr
    · rw [e, Option.some.injEq] at hr
      rw [← hr]
  · rw [Write_pipeWrite aead hlen]

/-- The frames of one direction, in every reachable state: the bytes written are the chunks
`Write` cut, of which the reading end has opened the first `opened`. The pipe holds the others,
the chunk of index `k` sealed under the nonce of counter `k`; the writing end seals the next chunk
under the counter of its index, and the reading end, holding the counter `opened`, opens the next
frame as chunk `opened` and counts on. A `Write` of `n` bytes adds `⌈n / dataMaxSize⌉` frames. -/
theorem reachable_frame_nonces {L : SecretPipe} (h : L.Reachable aead) :
    L.delivered.IsPrefix L.written ∧
      ∃ chunks : List Bytes, ∃ opened ≤ chunks.length,
        L.written = chunks.flatten ∧
        L.delivered ++ L.receiver.recvBuffer = (chunks.take opened).flatten ∧
        L.pipe = ((chunks.drop opened).mapIdx fun j c =>
          aead.Seal L.sender.sendSecret (nonceCounter (opened + j)) (frameOf c)).flatten ∧
        L.sender.sendNonce = nonceCounter chunks.length ∧
        L.receiver.recvSecret = L.sender.sendSecret ∧
        L.receiver.recvNonce = nonceCounter opened ∧
        (∀ bufLen r, L.receiver.recvBuffer = [] → Read aead L.receiver bufLen L.pipe = some r →
          ∃ c, chunks[opened]? = some c ∧ r.2.1 = c.take bufLen ∧
            r.1.recvNonce = nonceCounter (opened + 1)) ∧
        ∀ data, (Write aead pipeWrite L.sender L.pipe data).2.1 =
            L.pipe ++ ((chunksOf data).mapIdx fun j c =>
              aead.Seal L.sender.sendSecret (nonceCounter (chunks.length + j)) (frameOf c)).flatten ∧
          (chunksOf data).length = (data.length + dataMaxSize - 1) / dataMaxSize := by
  obtain ⟨hkey, hlen, chunks, opened, hf⟩ := h.inv
  have hsend : L.sender.sendNonce = nonceCounter chunks.length := by
    rw [hf.sendNonce_eq, iterate_incrNonce_zero]
  have hrecv : L.receiver.recvNonce = nonceCounter opened := by
    rw [hf.recvNonce_eq, iterate_incrNonce_zero]
  refine ⟨by rw [hf.written_eq_delivered]; exact List.prefix_append _ _, chunks, opened,
    hf.opened_le, hf.written_eq, hf.delivered_eq, ?_, hsend, hkey, hrecv, ?_, fun data => ?_⟩
  · rw [hf.pipe_eq, hrecv, sealFrames_nonceCounter]
  · intro bufLen r hb hr
    rcases hf.read_cases hkey hlen bufLen with ⟨hb', -⟩ | ⟨-, -, -, e⟩ | ⟨c, cs, -, hd, e⟩
    · exact absurd hb hb'
    · rw [e] at hr
      cases hr
    · -- the frame opened is the chunk of index `opened`, under the counter `opened`
      rw [e, Option.some.injEq] at hr
      subst hr
      refine ⟨c, ?_, rfl, by rw [hrecv, incrNonce_nonceCounter]⟩
      rw [← Nat.add_zero opened, ← List.getElem?_drop, hd]
      rfl
  · rw [Write_pipeWrite aead hlen, hsend, sealFrames_nonceCounter]
    exact ⟨rfl, length_chunksOf data⟩

/-- The bytes `hkdf` draws in `sample`: `0, 1, ..., 95`. -/
def sampleStream : Bytes := (List.range 96).map Nat.toUInt8

/-- Two ends built from the ephemeral keys `[0]` and `[1]`, HKDF drawing `sampleStream`. -/
def sample : SecretPipe :=
  ⟨⟨sampleStream.take 32, (sampleStream.drop 32).take 32, [], List.replicate 12 0,
      List.replicate 12 0⟩, [],
    ⟨(sampleStream.drop 32).take 32, sampleStream.take 32, [], List.replicate 12 0,
      List.replicate 12 0⟩, [], []⟩

theorem sample_reachable (aead : AEAD) : sample.Reachable aead :=
  .init ⟨fun _ => sampleStream, [0], [1], [], _, _, by decide, rfl, rfl, rfl⟩

/-- A `Write` of no bytes at `sample` seals no frame: its loop runs while data is left, so the
pipe stays empty, the send nonce stays and it returns `(0, nil)`. -/
theorem Write_nil_seals_no_frame :
    sample.Reachable AEAD.plain ∧
      Write AEAD.plain pipeWrite sample.sender sample.pipe [] = (sample.sender, [], 0, none) := by
  refine ⟨sample_reachable AEAD.plain, ?_⟩
  rw [Write, writeLoop, if_neg (by simp)]
  rfl

/-- `sample` after a `Write` of three bytes and a `Read` into a buffer of two: two bytes copied
out, the third buffered. -/
theorem reachable_secretStream_sample :
    ∃ L : SecretPipe, L.Reachable AEAD.plain ∧ L.written = [1, 2, 3] ∧ L.delivered = [1, 2] ∧
      L.receiver.recvBuffer = [3] ∧
      L.delivered.IsPrefix L.written ∧
      (L.pipe = [] → L.receiver.recvBuffer = [] → L.delivered = L.written) ∧
      (∀ bufLen, Read AEAD.plain L.receiver bufLen L.pipe = none ↔
        L.pipe = [] ∧ L.receiver.recvBuffer = []) ∧
      (∀ bufLen r, Read AEAD.plain L.receiver bufLen L.pipe = some r → r.2.2.2 = none) ∧
      ∀ data, (Write AEAD.plain pipeWrite L.sender L.pipe data).2.2 = (data.length, none) := by
  let w := Write AEAD.plain pipeWrite sample.sender sample.pipe [1, 2, 3]
  let L₁ : SecretPipe :=
    { sample with sender := w.1, pipe := w.2.1, written := sample.written ++ [1, 2, 3].take w.2.2.1 }
  have h₁ : L₁.Reachable AEAD.plain := .step (sample_reachable AEAD.plain) (.write sample [1, 2, 3])
  have hw : L₁.written = [1, 2, 3] := by decide +kernel
  -- the reading end opens the one frame and keeps the byte the buffer has no room for
  have hread : (Read AEAD.plain L₁.receiver 2 L₁.pipe).map (fun r => (r.2.1, r.1.recvBuffer)) =
      some ([1, 2], [3]) := by
    decide +kernel
  obtain ⟨r, hr, hproj⟩ := Option.map_eq_some_iff.mp hread
  simp only [Prod.mk.injEq] at hproj
  have h₂ : SecretPipe.Reachable AEAD.plain
      { L₁ with receiver := r.1, pipe := r.2.2.1, delivered := L₁.delivered ++ r.2.1 } :=
    .step h₁ (.read L₁ 2 r hr)
  exact ⟨_, h₂, hw, by simp [hproj.1, L₁, sample], hproj.2, reachable_secretStream h₂⟩

/-- `sample` after a `Write` of no bytes, a `Write` of three and a `Read` into a buffer of two:
the reading end has opened the one frame, under the counter `0`, and holds the counter `1`. -/
theorem reachable_frame_nonces_sample :
    ∃ L : SecretPipe, L.Reachable AEAD.plain ∧ L.written = [1, 2, 3] ∧ L.delivered = [1, 2] ∧
      L.pipe = [] ∧ L.receiver.recvNonce = nonceCounter 1 ∧
      L.delivered.IsPrefix L.written ∧
      ∃ chunks : List Bytes, ∃ opened ≤ chunks.length,
        L.written = chunks.flatten ∧
        L.delivered ++ L.receiver.recvBuffer = (chunks.take opened).flatten ∧
        L.pipe = ((chunks.drop opened).mapIdx fun j c =>
          AEAD.plain.Seal L.sender.sendSecret (nonceCounter (opened + j)) (frameOf c)).flatten ∧
        L.sender.sendNonce = nonceCounter chunks.length ∧
        L.receiver.recvSecret = L.sender.sendSecret ∧
        L.receiver.recvNonce = nonceCounter opened ∧
        (∀ bufLen r, L.receiver.recvBuffer = [] → Read AEAD.plain L.receiver bufLen L.pipe = some r →
          ∃ c, chunks[opened]? = some c ∧ r.2.1 = c.take bufLen ∧
            r.1.recvNonce = nonceCounter (opened + 1)) ∧
        ∀ data, (Write AEAD.plain pipeWrite L.sender L.pipe data).2.1 =
            L.pipe ++ ((chunksOf data).mapIdx fun j c =>
              AEAD.plain.Seal L.sender.sendSecret (nonceCounter (chunks.length + j))
                (frameOf c)).flatten ∧
          (chunksOf data).length = (data.length + dataMaxSize - 1) / dataMaxSize := by
  let w₀ := Write AEAD.plain pipeWrite sample.sender sample.pipe []
  let L₁ : SecretPipe :=
    { sample with sender := w₀.1, pipe := w₀.2.1, written := sample.written ++ [].take w₀.2.2.1 }
  have h₁ : L₁.Reachable AEAD.plain := .step (sample_reachable AEAD.plain) (.write sample [])
  let w₁ := Write AEAD.plain pipeWrite L₁.sender L₁.pipe [1, 2, 3]
  let L₂ : SecretPipe :=
    { L₁ with sender := w₁.1, pipe := w₁.2.1, written := L₁.written ++ [1, 2, 3].take w₁.2.2.1 }
  have h₂ : L₂.Reachable AEAD.plain := .step h₁ (.write L₁ [1, 2, 3])
  have hw : L₂.written = [1, 2, 3] := by decide +kernel
  -- the empty write sealed nothing, so the one frame in the pipe is the first, read in full
  have hread : (Read AEAD.plain L₂.receiver 2 L₂.pipe).map
      (fun r => (r.2.1, r.2.2.1, r.1.recvNonce)) = some ([1, 2], [], nonceCounter 1) := by
    decide +kernel
  obtain ⟨r, hr, hproj⟩ := Option.map_eq_some_iff.mp hread
  simp only [Prod.mk.injEq] at hproj
  have h₃ : SecretPipe.Reachable AEAD.plain
      { L₂ with receiver := r.1, pipe := r.2.2.1, delivered := L₂.delivered ++ r.2.1 } :=
    .step h₂ (.read L₂ 2 r hr)
  exact ⟨_, h₃, hw, by simp [hproj.1, L₂, L₁, sample], hproj.2.1, hproj.2.2,
    reachable_frame_nonces h₃⟩

end SecretPipe

end Dgrid.P2p.Conn
