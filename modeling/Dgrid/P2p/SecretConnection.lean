import Dgrid.Go.Binary

/-! `SecretConnection` of `conn`: the frames `Write` seals and `Read` opens, the nonce counter, and
the keys the handshake derives. `chacha20poly1305` is an `AEAD` given by its two calls and the
two facts the connection relies on; HKDF-SHA256 is the stream of bytes `hkdf` draws from the
Diffie-Hellman secret. The exchange of ephemeral keys and of the signed challenge, X25519 and the
mutexes are left out. `conn` is written through a call on a state of its own, which may report an
error, and read as a byte pipe on which `io.ReadFull` waits for a whole sealed frame. -/

namespace Dgrid.P2p.Conn

open Go

def dataLenSize : Nat := 4
def dataMaxSize : Nat := 1024
def totalFrameSize : Nat := dataMaxSize + dataLenSize
def aeadSizeOverhead : Nat := 16
def aeadKeySize : Nat := 32
def aeadNonceSize : Nat := 12

/-- `chacha20poly1305` as the connection calls it: `Seal` adds `aeadSizeOverhead` bytes, and
`Open` with the key and nonce a plaintext was sealed with gives it back. -/
structure AEAD where
  Seal : Bytes → Bytes → Bytes → Bytes
  Open : Bytes → Bytes → Bytes → Option Bytes
  seal_length : ∀ key nonce plaintext,
    (Seal key nonce plaintext).length = plaintext.length + aeadSizeOverhead
  open_seal : ∀ key nonce plaintext, Open key nonce (Seal key nonce plaintext) = some plaintext

/-- An `AEAD` that does not encrypt: the plaintext and a tag of zeros. It shows that the two facts
asked of `chacha20poly1305` can hold together. -/
def AEAD.plain : AEAD where
  Seal _ _ plaintext := plaintext ++ List.replicate aeadSizeOverhead 0
  Open _ _ ciphertext := some (ciphertext.take (ciphertext.length - aeadSizeOverhead))
  seal_length _ _ _ := by simp
  open_seal _ _ plaintext := by simp

/-- `SecretConnection`, without `conn`, `remPubKey` and the mutexes. -/
structure SecretConnection where
  recvSecret : Bytes
  sendSecret : Bytes
  recvBuffer : Bytes
  recvNonce : Bytes
  sendNonce : Bytes
deriving DecidableEq, Repr

/-- The errors `Write` and `Read` make themselves, and those of `conn.Write` they pass on. -/
inductive SecretConnError where
  /-- `"Invalid SecretConnection Key"` -/
  | invalidKey
  /-- `"Failed to decrypt SecretConnection"` -/
  | decrypt
  /-- `"chunkLength is greater than dataMaxSize"` -/
  | chunkLength
  | conn (err : String)
deriving DecidableEq, Repr

/-- `incrNonce(nonce)`: the eight bytes after the first four, a little-endian `uint64`, plus one
with wraparound. -/
def incrNonce (nonce : Bytes) : Bytes :=
  nonce.take 4 ++ LittleEndian.PutUint64 (LittleEndian.Uint64 (nonce.drop 4) + 1) ++ nonce.drop 12

/-- The `totalFrameSize` bytes `Write` seals for `chunk`: its length, little-endian, then the
chunk copied into the zeros of `make`. -/
def frameOf (chunk : Bytes) : Bytes :=
  LittleEndian.PutUint32 chunk.length ++ (chunk ++ List.replicate dataMaxSize 0).take dataMaxSize

section Write
variable {σ : Type} (aead : AEAD) (connWrite : σ → Bytes → σ × Option String)

/-- The loop of `sc.Write(data)`, `n` bytes written before, `conn.Write` being `connWrite` on the
state `conn`: the connection, the state of `conn`, the count and the error. The nonce is counted
up before the sealed frame is written, whether or not `conn` takes it. -/
def writeLoop (sc : SecretConnection) (conn : σ) (data : Bytes) (n : Nat) :
    SecretConnection × σ × Nat × Option SecretConnError :=
  if 0 < data.length then
    let chunk := if dataMaxSize < data.length then data.take dataMaxSize else data
    let rest := if dataMaxSize < data.length then data.drop dataMaxSize else []
    -- `chacha20poly1305.New` fails only on a key of another size
    if sc.sendSecret.length = aeadKeySize then
      let sealedFrame := aead.Seal sc.sendSecret sc.sendNonce (frameOf chunk)
      let sc := { sc with sendNonce := incrNonce sc.sendNonce }
      match connWrite conn sealedFrame with
      | (conn, some err) => (sc, conn, n, some (.conn err))
      | (conn, none) => writeLoop sc conn rest (n + chunk.length)
    else (sc, conn, n, some .invalidKey)
  else (sc, conn, n, none)
termination_by data.length
decreasing_by
  split
  · simp only [List.length_drop, dataMaxSize]
    omega
  · simpa

def Write (sc : SecretConnection) (conn : σ) (data : Bytes) :
    SecretConnection × σ × Nat × Option SecretConnError :=
  writeLoop aead connWrite sc conn data 0

end Write

/-- A `conn` that is a byte pipe taking every write. -/
def pipeWrite (pipe : Bytes) (b : Bytes) : Bytes × Option String := (pipe ++ b, none)

/-- `frame` after `aead.Open(frame[:0], ...)` returned `plaintext`: the plaintext written over the
`totalFrameSize` zeros of `frame` when it fits them, which are left as they are otherwise. -/
def openedFrame (plaintext : Bytes) : Bytes :=
  if plaintext.length ≤ totalFrameSize then
    plaintext ++ List.replicate (totalFrameSize - plaintext.length) 0
  else List.replicate totalFrameSize 0

/-- `sc.Read(data)` with a buffer of `bufLen` bytes, `conn` holding `conn`: the connection, the
bytes copied into the buffer, what `conn` holds after, and the error; `none` while `conn` holds
less than a sealed frame and nothing is buffered, where `io.ReadFull` waits. -/
def Read (aead : AEAD) (sc : SecretConnection) (bufLen : Nat) (conn : Bytes) :
    Option (SecretConnection × Bytes × Bytes × Option SecretConnError) :=
  if 0 < sc.recvBuffer.length then
    some ({ sc with recvBuffer := sc.recvBuffer.drop bufLen }, sc.recvBuffer.take bufLen, conn, none)
  else if conn.length < totalFrameSize + aeadSizeOverhead then none
  else
    let sealedFrame := conn.take (totalFrameSize + aeadSizeOverhead)
    let conn' := conn.drop (totalFrameSize + aeadSizeOverhead)
    if sc.recvSecret.length = aeadKeySize then
      match aead.Open sc.recvSecret sc.recvNonce sealedFrame with
      | none => some (sc, [], conn', some .decrypt)
      | some plaintext =>
        let frame := openedFrame plaintext
        let sc := { sc with recvNonce := incrNonce sc.recvNonce }
        let chunkLength := LittleEndian.Uint32 frame
        if dataMaxSize < chunkLength then some (sc, [], conn', some .chunkLength)
        else
          let chunk := (frame.drop dataLenSize).take chunkLength
          some ({ sc with recvBuffer := chunk.drop bufLen }, chunk.take bufLen, conn', none)
    else some (sc, [], conn', some .invalidKey)

def sort32 (foo bar : Bytes) : Bytes × Bytes :=
  if bytesCompare foo bar < 0 then (foo, bar) else (bar, foo)

/-- `deriveSecretAndChallenge(dhSecret, locIsLeast)`, `hkdf` giving the bytes HKDF-SHA256 draws
from a secret: the receiving key, the sending key and the challenge. -/
def deriveSecretAndChallenge (hkdf : Bytes → Bytes) (dhSecret : Bytes) (locIsLeast : Bool) :
    Result (Bytes × Bytes × Bytes) :=
  let res := (hkdf dhSecret).take (2 * aeadKeySize + 32)
  if res.length < 2 * aeadKeySize + 32 then
    .panic (if res.length = 0 then "EOF" else "unexpected EOF")
  else
    let challenge := res.drop (2 * aeadKeySize)
    if locIsLeast then .ok (res.take aeadKeySize, (res.drop aeadKeySize).take aeadKeySize, challenge)
    else .ok ((res.drop aeadKeySize).take aeadKeySize, res.take aeadKeySize, challenge)

/-- The connection `MakeSecretConnection` builds from the ephemeral public keys and the
Diffie-Hellman secret, before the challenge is signed and checked. -/
def MakeSecretConnection (hkdf : Bytes → Bytes) (locEphPub remEphPub dhSecret : Bytes) :
    Result SecretConnection := do
  let locIsLeast := decide (locEphPub = (sort32 locEphPub remEphPub).1)
  let keys ← deriveSecretAndChallenge hkdf dhSecret locIsLeast
  pure ⟨keys.1, keys.2.1, [], List.replicate aeadNonceSize 0, List.replicate aeadNonceSize 0⟩

section Frames

@[simp] theorem frameOf_length (chunk : Bytes) : (frameOf chunk).length = totalFrameSize := by
  simp [frameOf, LittleEndian.PutUint32, totalFrameSize, dataLenSize]
  omega

theorem frameOf_Uint32 {chunk : Bytes} (h : chunk.length ≤ dataMaxSize) :
    LittleEndian.Uint32 (frameOf chunk) = chunk.length := by
  rw [LittleEndian.Uint32, frameOf, List.take_left' (by simp [LittleEndian.PutUint32]),
    LittleEndian.PutUint32, getLE_putLE]
  exact Nat.mod_eq_of_lt (lt_of_le_of_lt h (by norm_num [dataMaxSize]))

theorem frameOf_chunk {chunk : Bytes} (h : chunk.length ≤ dataMaxSize) :
    ((frameOf chunk).drop dataLenSize).take chunk.length = chunk := by
  rw [frameOf, List.drop_left' (by simp [LittleEndian.PutUint32, dataLenSize]), List.take_take,
    Nat.min_eq_left h, List.take_left' rfl]

def chunksOf (data : Bytes) : List Bytes :=
  if 0 < data.length then data.take dataMaxSize :: chunksOf (data.drop dataMaxSize) else []
termination_by data.length
decreasing_by
  simp only [List.length_drop, dataMaxSize]
  omega

theorem chunksOf_of_pos {data : Bytes} (h : 0 < data.length) :
    chunksOf data = data.take dataMaxSize :: chunksOf (data.drop dataMaxSize) := by
  rw [chunksOf, if_pos h]

theorem flatten_chunksOf (data : Bytes) : (chunksOf data).flatten = data := by
  induction data using chunksOf.induct with
  | case1 data hpos ih => rw [chunksOf, if_pos hpos, List.flatten_cons, ih, List.take_append_drop]
  | case2 data hpos =>
    rw [chunksOf, if_neg hpos]
    simp_all

theorem chunksOf_bounds (data : Bytes) : ∀ c ∈ chunksOf data, 0 < c.length ∧ c.length ≤ dataMaxSize := by
  induction data using chunksOf.induct with
  | case1 data hpos ih =>
    rw [chunksOf, if_pos hpos]
    intro c hc
    rcases List.mem_cons.mp hc with rfl | hc
    · simp only [List.length_take]
      simp only [dataMaxSize] at *
      omega
    · exact ih c hc
  | case2 data hpos =>
    rw [chunksOf, if_neg hpos]
    simp

theorem length_chunksOf (data : Bytes) :
    (chunksOf data).length = (data.length + dataMaxSize - 1) / dataMaxSize := by
  induction data using chunksOf.induct with
  | case1 data hpos ih =>
    rw [chunksOf, if_pos hpos, List.length_cons, ih, List.length_drop]
    simp only [dataMaxSize]
    omega
  | case2 data hpos =>
    rw [chunksOf, if_neg hpos, List.length_nil]
    simp only [dataMaxSize]
    omega

/-- The sealed frames of `chunks` under `key`, the first sealed with `nonce` and each next one with
the nonce after. -/
def sealFrames (aead : AEAD) (key nonce : Bytes) : List Bytes → Bytes
  | [] => []
  | c :: cs => aead.Seal key nonce (frameOf c) ++ sealFrames aead key (incrNonce nonce) cs

theorem sealFrames_append (aead : AEAD) (key : Bytes) (xs ys : List Bytes) :
    ∀ nonce, sealFrames aead key nonce (xs ++ ys) =
      sealFrames aead key nonce xs ++ sealFrames aead key (incrNonce^[xs.length] nonce) ys := by
  induction xs with
  | nil => intro nonce; rfl
  | cons c cs ih =>
    intro nonce
    simp only [List.cons_append, sealFrames, ih, List.append_assoc, List.length_cons,
      Function.iterate_succ_apply]

theorem length_sealFrames (aead : AEAD) (key : Bytes) (cs : List Bytes) :
    ∀ nonce, (sealFrames aead key nonce cs).length = cs.length * (totalFrameSize + aeadSizeOverhead) := by
  induction cs with
  | nil => intro nonce; simp [sealFrames]
  | cons c cs ih =>
    intro nonce
    simp only [sealFrames, List.length_append, aead.seal_length, frameOf_length, ih, List.length_cons]
    ring

/-- The nonce whose counter, the little-endian `uint64` after the first four bytes, is `k`. -/
def nonceCounter (k : Nat) : Bytes := List.replicate 4 0 ++ LittleEndian.PutUint64 k

theorem nonceCounter_zero : nonceCounter 0 = List.replicate aeadNonceSize 0 := by decide

theorem incrNonce_nonceCounter (k : Nat) : incrNonce (nonceCounter k) = nonceCounter (k + 1) := by
  have hlen : (List.replicate 4 (0 : UInt8)).length = 4 := rfl
  have hput : (LittleEndian.PutUint64 k).length = 8 := length_putLE 8 k
  -- the counter read back is `k` cut to 64 bits, and cutting again after adding one changes nothing
  have hcount : LittleEndian.PutUint64 (LittleEndian.Uint64 (LittleEndian.PutUint64 k) + 1) =
      LittleEndian.PutUint64 (k + 1) := by
    unfold LittleEndian.Uint64 LittleEndian.PutUint64
    rw [List.take_of_length_le (by simp), getLE_putLE, ← putLE_mod, Nat.mod_add_mod, putLE_mod]
  rw [incrNonce, nonceCounter, List.take_left' hlen, List.drop_left' hlen, hcount,
    List.drop_eq_nil_of_le (by simp [hput])]
  rfl

/-- The nonce `incrNonce` reaches from the zero nonce in `k` steps is the one of counter `k`. -/
theorem iterate_incrNonce_zero (k : Nat) :
    incrNonce^[k] (List.replicate aeadNonceSize 0) = nonceCounter k := by
  induction k with
  | zero => exact nonceCounter_zero.symm
  | succ k ih => rw [Function.iterate_succ_apply', ih, incrNonce_nonceCounter]

/-- Frames sealed from the nonce of counter `k`: the chunk of index `j` among them is sealed under
the counter `k + j`. -/
theorem sealFrames_nonceCounter (aead : AEAD) (key : Bytes) (cs : List Bytes) :
    ∀ k, sealFrames aead key (nonceCounter k) cs =
      (cs.mapIdx fun j c => aead.Seal key (nonceCounter (k + j)) (frameOf c)).flatten := by
  induction cs with
  | nil => intro k; rfl
  | cons c cs ih =>
    intro k
    simp only [sealFrames, incrNonce_nonceCounter, ih, List.mapIdx_cons, List.flatten_cons,
      Nat.add_zero, Nat.add_assoc, Nat.add_comm 1]

theorem sealFrames_eq_nil {aead : AEAD} {key nonce : Bytes} {cs : List Bytes} :
    sealFrames aead key nonce cs = [] ↔ cs = [] := by
  rw [← List.length_eq_zero_iff, length_sealFrames, Nat.mul_eq_zero, List.length_eq_zero_iff]
  simp [totalFrameSize, dataMaxSize, dataLenSize, aeadSizeOverhead]

section Write
variable {σ : Type} (aead : AEAD) (connWrite : σ → Bytes → σ × Option String)

/-- `conn.Write` called with the sealed frame of each chunk in turn, under `key` and the nonces
from `nonce` on, until a call fails: the state of `conn` after, the number of frames it took,
and its error. -/
def writeChunks (key nonce : Bytes) (conn : σ) : List Bytes → σ × Nat × Option String
  | [] => (conn, 0, none)
  | c :: cs =>
    match connWrite conn (aead.Seal key nonce (frameOf c)) with
    | (conn, some err) => (conn, 0, some err)
    | (conn, none) =>
      let r := writeChunks key (incrNonce nonce) conn cs
      (r.1, r.2.1 + 1, r.2.2)

theorem writeLoop_of_pos {sc : SecretConnection} {conn : σ} {data : Bytes} (n : Nat)
    (h : 0 < data.length) (hkey : sc.sendSecret.length = aeadKeySize) :
    writeLoop aead connWrite sc conn data n =
      match connWrite conn (aead.Seal sc.sendSecret sc.sendNonce (frameOf (data.take dataMaxSize))) with
      | (conn, some err) => ({ sc with sendNonce := incrNonce sc.sendNonce }, conn, n, some (.conn err))
      | (conn, none) => writeLoop aead connWrite { sc with sendNonce := incrNonce sc.sendNonce } conn
          (data.drop dataMaxSize) (n + (data.take dataMaxSize).length) := by
  -- the chunk and the rest are the first `dataMaxSize` bytes and what follows, whether or not
  -- `data` is longer
  have hchunk : (if dataMaxSize < data.length then data.take dataMaxSize else data) =
      data.take dataMaxSize := by
    split
    · rfl
    · exact (List.take_of_length_le (by omega)).symm
  have hrest : (if dataMaxSize < data.length then data.drop dataMaxSize else []) =
      data.drop dataMaxSize := by
    split
    · rfl
    · exact (List.drop_of_length_le (by omega)).symm
  rw [writeLoop, if_pos h, if_pos hkey]
  simp only [hchunk, hrest]

/-- The loop with a key of `aeadKeySize` bytes: it hands `conn` the chunks of `data` sealed under
the nonces that follow, until `conn` fails, counts the bytes of the chunks `conn` took, and
counts the nonce up once for each frame it sealed. -/
theorem writeLoop_spec (data : Bytes) :
    ∀ (sc : SecretConnection) (conn : σ) (n : Nat), sc.sendSecret.length = aeadKeySize →
    writeLoop aead connWrite sc conn data n =
      let r := writeChunks aead connWrite sc.sendSecret sc.sendNonce conn (chunksOf data)
      ({ sc with sendNonce := incrNonce^[r.2.1 + if r.2.2.isSome then 1 else 0] sc.sendNonce }, r.1,
        n + ((chunksOf data).take r.2.1).flatten.length, r.2.2.map .conn) := by
  induction data using chunksOf.induct with
  | case1 data hpos ih =>
    intro sc conn n hkey
    rw [writeLoop_of_pos aead connWrite n hpos hkey, chunksOf_of_pos hpos]
    rcases hw : connWrite conn (aead.Seal sc.sendSecret sc.sendNonce
      (frameOf (data.take dataMaxSize))) with ⟨conn', _ | err⟩
    · -- the frame is taken: the rest of the loop runs from the next nonce
      simp only [writeChunks, hw, ih { sc with sendNonce := incrNonce sc.sendNonce } conn' _ hkey]
      simp only [List.take_succ_cons, List.flatten_cons, List.length_append,
        Nat.add_right_comm _ 1, Function.iterate_succ_apply]
      simp only [Nat.add_assoc]
    · simp [writeChunks, hw]
  | case2 data hpos =>
    intro sc conn n _
    have hnil : data = [] := List.eq_nil_of_length_eq_zero (by omega)
    subst hnil
    rw [writeLoop, if_neg hpos, chunksOf, if_neg hpos]
    simp [writeChunks]

theorem Write_spec {sc : SecretConnection} (hkey : sc.sendSecret.length = aeadKeySize) (conn : σ)
    (data : Bytes) :
    Write aead connWrite sc conn data =
      let r := writeChunks aead connWrite sc.sendSecret sc.sendNonce conn (chunksOf data)
      ({ sc with sendNonce := incrNonce^[r.2.1 + if r.2.2.isSome then 1 else 0] sc.sendNonce }, r.1,
        ((chunksOf data).take r.2.1).flatten.length, r.2.2.map .conn) := by
  rw [Write, writeLoop_spec aead connWrite data sc conn 0 hkey]
  simp

end Write

theorem writeChunks_pipeWrite (aead : AEAD) (key : Bytes) (cs : List Bytes) :
    ∀ nonce pipe, writeChunks aead pipeWrite key nonce pipe cs =
      (pipe ++ sealFrames aead key nonce cs, cs.length, none) := by
  induction cs with
  | nil => intro nonce pipe; simp [writeChunks, sealFrames]
  | cons c cs ih =>
    intro nonce pipe
    simp [writeChunks, pipeWrite, ih, sealFrames]

theorem Write_pipeWrite (aead : AEAD) {sc : SecretConnection}
    (hkey : sc.sendSecret.length = aeadKeySize) (pipe data : Bytes) :
    Write aead pipeWrite sc pipe data =
      ({ sc with sendNonce := incrNonce^[(chunksOf data).length] sc.sendNonce },
        pipe ++ sealFrames aead sc.sendSecret sc.sendNonce (chunksOf data), data.length, none) := by
  rw [Write_spec aead pipeWrite hkey, writeChunks_pipeWrite]
  simp [flatten_chunksOf]

end Frames

section Read

variable (aead : AEAD) {sc : SecretConnection} (bufLen : Nat)

theorem Read_buffered (h : sc.recvBuffer ≠ []) (conn : Bytes) :
    Read aead sc bufLen conn =
      some ({ sc with recvBuffer := sc.recvBuffer.drop bufLen }, sc.recvBuffer.take bufLen, conn, none) := by
  rw [Read, if_pos (List.length_pos_of_ne_nil h)]

theorem Read_idle (h : sc.recvBuffer = []) : Read aead sc bufLen [] = none := by
  rw [Read, if_neg (by simp [h]), if_pos (by simp [totalFrameSize, aeadSizeOverhead])]

theorem Read_frame (h : sc.recvBuffer = []) (hkey : sc.recvSecret.length = aeadKeySize)
    {chunk : Bytes} (hc : chunk.length ≤ dataMaxSize) (rest : Bytes) :
    Read aead sc bufLen (aead.Seal sc.recvSecret sc.recvNonce (frameOf chunk) ++ rest) =
      some ({ sc with recvNonce := incrNonce sc.recvNonce, recvBuffer := chunk.drop bufLen },
        chunk.take bufLen, rest, none) := by
  have hsealed : (aead.Seal sc.recvSecret sc.recvNonce (frameOf chunk)).length =
      totalFrameSize + aeadSizeOverhead := by
    rw [aead.seal_length, frameOf_length]
  have hopened : openedFrame (frameOf chunk) = frameOf chunk := by
    simp [openedFrame]
  rw [Read, if_neg (by simp [h]), if_neg (by simp [hsealed]), List.take_left' hsealed,
    List.drop_left' hsealed, if_pos hkey, aead.open_seal]
  simp only [hopened, frameOf_Uint32 hc, if_neg (Nat.not_lt.mpr hc), frameOf_chunk hc]

end Read

section Handshake

theorem locIsLeast_swap {a b : Bytes} (hne : a ≠ b) :
    decide (b = (sort32 b a).1) = !decide (a = (sort32 a b).1) := by
  have hba := bytesCompare_swap a b
  have hab : bytesCompare a b ≠ 0 := fun h => hne (bytesCompare_eq_zero.mp h)
  unfold sort32
  by_cases hlt : bytesCompare a b < 0
  · rw [if_pos hlt, if_neg (by omega)]
    simp [Ne.symm hne]
  · rw [if_neg hlt, if_pos (by omega)]
    simp [hne]

theorem deriveSecretAndChallenge_ok {hkdf : Bytes → Bytes} {dhSecret : Bytes} {locIsLeast : Bool}
    {keys : Bytes × Bytes × Bytes} (h : deriveSecretAndChallenge hkdf dhSecret locIsLeast = .ok keys) :
    ∃ res, res = (hkdf dhSecret).take (2 * aeadKeySize + 32) ∧ res.length = 2 * aeadKeySize + 32 ∧
      (keys.1, keys.2.1) = if locIsLeast then (res.take aeadKeySize, (res.drop aeadKeySize).take aeadKeySize)
        else ((res.drop aeadKeySize).take aeadKeySize, res.take aeadKeySize) := by
  unfold deriveSecretAndChallenge at h
  by_cases hlen : ((hkdf dhSecret).take (2 * aeadKeySize + 32)).length < 2 * aeadKeySize + 32
  · rw [if_pos hlen] at h
    cases h
  · rw [if_neg hlen] at h
    refine ⟨_, rfl, le_antisymm (List.length_take_le _ _) (Nat.not_lt.mp hlen), ?_⟩
    cases locIsLeast
    · simp only [Bool.false_eq_true, if_false, Result.ok.injEq] at h ⊢
      rw [← h]
    · simp only [if_true, Result.ok.injEq] at h ⊢
      rw [← h]

/-- The two ends of a handshake with different ephemeral keys and the same Diffie-Hellman secret:
each one's sending key is the other's receiving key, of `aeadKeySize` bytes, and both start with
empty buffers and zero nonces. -/
theorem MakeSecretConnection_pair {hkdf : Bytes → Bytes} {a b dhSecret : Bytes} (hne : a ≠ b)
    {s r : SecretConnection} (hs : MakeSecretConnection hkdf a b dhSecret = .ok s)
    (hr : MakeSecretConnection hkdf b a dhSecret = .ok r) :
    s.sendSecret = r.recvSecret ∧ s.recvSecret = r.sendSecret ∧ s.sendSecret.length = aeadKeySize ∧
      s.recvSecret.length = aeadKeySize ∧ s.recvBuffer = [] ∧ r.recvBuffer = [] ∧
      s.sendNonce = List.replicate aeadNonceSize 0 ∧ r.recvNonce = List.replicate aeadNonceSize 0 := by
  obtain ⟨ks, hks, hs⟩ := Result.bind_eq_ok.mp hs
  obtain ⟨kr, hkr, hr⟩ := Result.bind_eq_ok.mp hr
  simp only [Result.pure_eq, Result.ok.injEq] at hs hr
  subst hs hr
  obtain ⟨res, hres, hlen, hks⟩ := deriveSecretAndChallenge_ok hks
  have h₁ : (res.take aeadKeySize).length = aeadKeySize := by simp [hlen, aeadKeySize]
  have h₂ : ((res.drop aeadKeySize).take aeadKeySize).length = aeadKeySize := by
    simp [hlen, aeadKeySize]
  -- the other end draws the same bytes from the same secret, and takes the other role
  obtain ⟨res', hres', -, hkr⟩ := deriveSecretAndChallenge_ok hkr
  rw [← hres] at hres'
  subst hres'
  rw [locIsLeast_swap hne] at hkr
  cases hb : decide (a = (sort32 a b).1)
  · simp only [hb, Bool.not_false, if_true, if_false, Bool.false_eq_true, Prod.mk.injEq] at hks hkr
    obtain ⟨e₁, e₂⟩ := hks
    obtain ⟨e₃, e₄⟩ := hkr
    exact ⟨e₂.trans e₃.symm, e₁.trans e₄.symm, e₂ ▸ h₁, e₁ ▸ h₂, rfl, rfl, rfl, rfl⟩
  · simp only [hb, Bool.not_true, if_true, if_false, Bool.false_eq_true, Prod.mk.injEq] at hks hkr
    obtain ⟨e₁, e₂⟩ := hks
    obtain ⟨e₃, e₄⟩ := hkr
    exact ⟨e₂.trans e₃.symm, e₁.trans e₄.symm, e₂ ▸ h₂, e₁ ▸ h₁, rfl, rfl, rfl, rfl⟩

end Handshake

end Dgrid.P2p.Conn
