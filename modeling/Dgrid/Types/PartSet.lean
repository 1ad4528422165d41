import Dgrid.Crypto.Merkle
import Dgrid.Types.Vote

/-! `core/types/part_set.go`: a block is cut into parts of `partSize` bytes, each with a Merkle
proof against the root of all parts. A receiver starts from the header (count and root), takes
parts one at a time, and once it holds all of them reads the block back through a reader that
walks the parts in order. -/

namespace Dgrid.Types
open Go Merkle

deriving instance DecidableEq for SimpleProof

/-- `types.Part`. -/
structure Part where
  Index : Int
  Bytes : Bytes
  Proof : SimpleProof
deriving DecidableEq

/-- `types.PartSet`, without its lock and its bit array of held parts, which only the getter
`BitArray` reads. A nil `*Part` is `none`. -/
structure PartSet where
  total : Int
  hash : Bytes
  parts : List (Option Part)
  count : Int
deriving DecidableEq

/-- The errors `AddPart` returns. -/
inductive PartSetError where
  /-- `ErrPartSetUnexpectedIndex` -/
  | unexpectedIndex
  /-- `ErrPartSetInvalidProof` -/
  | invalidProof
deriving DecidableEq

variable (h : Hasher)

/-- The bytes of part `i`: `data[i*partSize : cmn.MinInt(len(data), (i+1)*partSize)]`. -/
def partBytes (data : Bytes) (partSize : Int) (i : Nat) : Result Bytes :=
  slice data (wrap64 (i * partSize)) (min data.length (wrap64 ((i + 1) * partSize)))

/-- `NewPartSetFromData(data, partSize)`: `(len(data) + partSize - 1) / partSize` parts, their
root and a proof for each. -/
def NewPartSetFromData (data : Bytes) (partSize : Int) : Result PartSet :=
  if partSize = 0 then .panic "integer divide by zero"
  else
    let total := wrap64 ((wrap64 (wrap64 (data.length + partSize) - 1)).tdiv partSize)
    if total < 0 then .panic "makeslice: len out of range"
    else do
      let partsBytes ← (List.range total.toNat).mapM (partBytes data partSize)
      let (root, proofs) ← SimpleProofsFromByteSlices h partsBytes
      -- `parts[i].Proof = *proofs[i]`, one proof per part
      pure { total, hash := root, count := total
             parts := (partsBytes.zip proofs).mapIdx fun i bp => some ⟨i, bp.1, bp.2⟩ }

/-- `NewPartSetFromHeader(header)`: no part held yet. -/
def NewPartSetFromHeader (header : PartSetHeader) : Result PartSet :=
  if header.Total < 0 then .panic "makeslice: len out of range"
  else .ok { total := header.Total, hash := header.Hash
             parts := List.replicate header.Total.toNat none, count := 0 }

namespace PartSet

def Header (ps : PartSet) : PartSetHeader := ⟨ps.total, ps.hash⟩

/-- `ps.AddPart(part)`: whether the part was added, and the error. The part is checked against
its own proof only; the proof's `Index` is never compared with `part.Index`. `count` stays at
most `total`, so `ps.count++` does not overflow. -/
def AddPart (ps : PartSet) (part : Part) : Result ((Bool × Option PartSetError) × PartSet) :=
  if part.Index ≥ ps.total then .ok ((false, some .unexpectedIndex), ps)
  else do
    let held ← index ps.parts part.Index
    if held.isSome then .ok ((false, none), ps)
    else do
      let err ← part.Proof.Verify h ps.hash part.Bytes
      if err.isSome then .ok ((false, some .invalidProof), ps)
      else do
        let parts ← update ps.parts part.Index fun _ => some part
        pure ((true, none), { ps with parts, count := ps.count + 1 })

def IsComplete (ps : PartSet) : Bool := ps.count = ps.total

end PartSet

/-- `io.EOF`. -/
inductive ReadError where
  | EOF
deriving DecidableEq

/-- `(*bytes.Reader).Read` into a buffer of `n` bytes, on the unread bytes `r`: an exhausted
reader reports `io.EOF`, even to an empty buffer. -/
def bytesReaderRead (r : Bytes) (n : Nat) : (Bytes × Option ReadError) × Bytes :=
  if r = [] then (([], some .EOF), r) else ((r.take n, none), r.drop n)

/-- `types.PartSetReader`, with the `bytes.Reader` of the current part kept as its unread
bytes. -/
structure PartSetReader where
  i : Int
  parts : List (Option Part)
  reader : Bytes
deriving DecidableEq

/-- `NewPartSetReader(parts)`: a reader on the first part. -/
def NewPartSetReader (parts : List (Option Part)) : Result PartSetReader := do
  let first ← index parts 0
  match first with
  | none => .panic "invalid memory address or nil pointer dereference"
  | some part => pure ⟨0, parts, part.Bytes⟩

namespace PartSet

def GetReader (ps : PartSet) : Result PartSetReader :=
  if !ps.IsComplete then .panic "Cannot GetReader() on incomplete PartSet"
  else NewPartSetReader ps.parts

end PartSet

namespace PartSetReader

/-- What the reader has yet to deliver, as a measure: the parts after the current one and
whether the current one has unread bytes. -/
def remaining (psr : PartSetReader) : Nat :=
  2 * (psr.parts.length - psr.i).toNat + if psr.reader = [] then 0 else 1

/-- `psr.Read(p)` into a buffer of `n` bytes. When the current part holds fewer than `n`
bytes but some, the first recursive call `psr.Read(p[:readerLen])` takes the first branch, a
read of the whole rest of the part; it is written out as that read. -/
def Read (psr : PartSetReader) (n : Nat) :
    Result ((Bytes × Option ReadError) × PartSetReader) :=
  let readerLen := psr.reader.length
  if readerLen ≥ n then
    let (res, reader) := bytesReaderRead psr.reader n
    .ok (res, { psr with reader })
  else if readerLen > 0 then
    let ((b₁, err), reader) := bytesReaderRead psr.reader readerLen
    if err.isSome then .ok ((b₁, err), { psr with reader })
    else do
      let ((b₂, err), psr') ← Read { psr with reader := [] } (n - readerLen)
      .ok ((b₁ ++ b₂, err), psr')
  else
    let i := psr.i + 1
    if i ≥ psr.parts.length then .ok (([], some .EOF), { psr with i })
    else do
      let part ← index psr.parts i
      match part with
      | none => .panic "invalid memory address or nil pointer dereference"
      | some part => Read { psr with i, reader := part.Bytes } n
termination_by psr.remaining
decreasing_by
  all_goals simp only [remaining]
  · have : psr.reader ≠ [] := List.ne_nil_of_length_pos ‹_›
    simp [this]
  · split <;> omega

end PartSetReader

end Dgrid.Types
