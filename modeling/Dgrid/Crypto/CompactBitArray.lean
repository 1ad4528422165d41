import Dgrid.Common.BitArraySpec
import Dgrid.Go.Binary

/-! `crypto/multisig/bitarray`: a compact bit array keeps its bits in bytes, bit `i` being bit
`7 - i % 8` of byte `i / 8`, and how many bits of its last byte it uses (`0` for all eight).
A nil `*CompactBitArray` is `none`. Sizes whose byte slice could not be allocated are out of
reach, and the model makes no slice for them. -/

namespace Dgrid.Bitarray
open Go

/-- A non-nil `CompactBitArray`. -/
structure CompactBitArray where
  ExtraBitsStored : UInt8
  Elems : Bytes
deriving DecidableEq, Repr

/-- `NewCompactBitArray(bits)`: `nil` for a size that is not positive. -/
def NewCompactBitArray (bits : Int) : Option CompactBitArray :=
  if bits ≤ 0 then none
  else some ⟨(uint8OfInt (bits.tmod 8)).toUInt8, List.replicate ((bits + 7).tdiv 8).toNat 0⟩

namespace CompactBitArray

def Size : Option CompactBitArray → Int
  | none => 0
  | some bA =>
      if bA.ExtraBitsStored = 0 then bA.Elems.length * 8
      else ((bA.Elems.length : Int) - 1) * 8 + bA.ExtraBitsStored.toNat

/-- The mask `uint8(1) << uint8(7-(i%8))` of bit `i` in its byte. -/
def mask (i : Int) : UInt8 := shl8 1 (uint8OfInt (7 - i.tmod 8))

/-- `GetIndex(i)`: past the size `false`; below it the byte `Elems[i>>3]`, which panics for a
negative index. -/
def GetIndex (bA : Option CompactBitArray) (i : Int) : Result Bool :=
  match bA with
  | none => .ok false
  | some b =>
      if i ≥ Size (some b) then .ok false
      else do
        let e ← index b.Elems (i >>> (3 : Nat))
        pure (decide (e &&& mask i > 0))

/-- `SetIndex(i, v)`: whether the bit was in range, and the array after the write. -/
def SetIndex (bA : Option CompactBitArray) (i : Int) (v : Bool) :
    Result (Bool × Option CompactBitArray) :=
  match bA with
  | none => .ok (false, none)
  | some b =>
      if i ≥ Size (some b) then .ok (false, some b)
      else do
        let Elems ← update b.Elems (i >>> (3 : Nat)) fun e =>
          if v then e ||| mask i else e &&& ~~~mask i
        pure (true, some { b with Elems })

/-- `NumTrueBitsBefore(index)`: the set bits below `index`. -/
def NumTrueBitsBefore (bA : Option CompactBitArray) (index : Int) : Result Int :=
  (List.range index.toNat).foldlM (fun n (i : Nat) => do
    let b ← GetIndex bA i
    pure (if b then n + 1 else n)) 0

def MarshalJSON : Option CompactBitArray → Result Bytes
  | none => .ok BitString.null
  | some bA => BitString.marshal (Size (some bA)) fun i => GetIndex (some bA) i

/-- `SetIndex(i, true)` on the array `UnmarshalJSON` makes. -/
def setTrue (bA : Option CompactBitArray) (i : Nat) : Result (Option CompactBitArray) := do
  let (_, bA) ← SetIndex bA i true
  pure bA

/-- `UnmarshalJSON(bz)` on the receiver `bA`: the error returned, and the receiver after. -/
def UnmarshalJSON (bA : CompactBitArray) (bz : Bytes) :
    Result (Option BitString.FormatError × CompactBitArray) :=
  BitString.unmarshal NewCompactBitArray setTrue ⟨0, []⟩ bA bz

/-- `CompactMarshal()`: the size as a varint, then the bytes; `null` for no bits. -/
def CompactMarshal (bA : Option CompactBitArray) : Bytes :=
  match bA with
  | none => BitString.null
  | some b => if Size (some b) ≤ 0 then BitString.null
      else PutUvarint (Size (some b)).toNat ++ b.Elems

/-- The error `CompactUnmarshal` reports for a size that does not fit. -/
def invalidSize : String := "compact bit array: invalid compact unmarshal size"

end CompactBitArray

open CompactBitArray

/-- `CompactUnmarshal(bz)`. The varint's length is negative on overflow, and slicing from it
panics. The size is a `uint64`: `size+7` wraps, and so does its conversion to `int`. -/
def CompactUnmarshal (bz : Bytes) : Result (Except String (Option CompactBitArray)) :=
  if bz.length < 2 then .ok (.error invalidSize)
  else if bz = BitString.null then .ok (.ok (NewCompactBitArray 0))
  else do
    let (size, n) := Uvarint bz
    let bz ← slice bz n bz.length
    if (bz.length : Int) ≠ (wrap64 ((size + 7) % 2 ^ 64)).tdiv 8 then .ok (.error invalidSize)
    else .ok (.ok (some ⟨(size % 8).toUInt8, bz⟩))

end Dgrid.Bitarray
