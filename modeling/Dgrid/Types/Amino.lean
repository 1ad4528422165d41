import Dgrid.Types.Vote
import Dgrid.Go.Binary
import Dgrid.Go.Strconv

/-! The binary encoding of the amino under `third_party/amino`, for the two types the vote code
encodes: a `PartSetHeader`, bare, in `BlockID.Key`, and a `CanonicalVote`, with its length in
front, in `Vote.SignBytes`. A struct is its fields in order, each after a key of its number and
wire type, an empty slice or string left out, and then the byte `StructTerm`. The header's
encoding is one to one, and that of the zero header is three bytes: the codec keeps part-set
headers apart in the sense of `BlockID.KeyCodec`. -/

namespace Dgrid.Types
open Go

namespace Amino

def fieldKey (num typ : Nat) : Bytes := PutUvarint (num * 8 + typ)

/-- `EncodeByte(w, byte(Typ3_StructTerm))`, which ends a struct. -/
def structTerm : Bytes := [0x04]

/-- `EncodeByteSlice(w, bz)`: the length, then the bytes. -/
def EncodeByteSlice (bz : Bytes) : Bytes := PutUvarint bz.length ++ bz

/-- A field of wire type `Typ3_ByteLength` holding a byte slice or a string: left out when empty,
as `isVoid` has it. -/
def byteSliceField (num : Nat) (bz : Bytes) : Bytes :=
  if bz = [] then [] else fieldKey num 2 ++ EncodeByteSlice bz

/-- `EncodeInt64(w, i)`: the two's complement, high byte first. -/
def EncodeInt64 (i : Int) : Bytes := BigEndian.PutUint64 (i % 2 ^ 64).toNat

def EncodeInt32 (i : Int) : Bytes := BigEndian.PutUint32 (i % 2 ^ 32).toNat

/-- `EncodeTime(w, t)`: the seconds since the epoch and the nanoseconds within the second. -/
def EncodeTime (t : Time) : Bytes :=
  fieldKey 1 1 ++ EncodeInt64 (t / 1000000000) ++ fieldKey 2 5 ++ EncodeInt32 (t % 1000000000) ++
    structTerm

/-- `cdc.MarshalBinaryBare(psh)` of `PartSetHeader{Total int; Hash cmn.HexBytes}`: the total as a
zigzag varint, then the hash. -/
def PartSetHeader (psh : Types.PartSetHeader) : Bytes :=
  fieldKey 1 0 ++ PutVarint psh.Total ++ byteSliceField 2 psh.Hash ++ structTerm

/-- The struct `CanonicalPartSetHeader{Hash; Total int}`. -/
def CanonicalPartSetHeader (psh : Types.CanonicalPartSetHeader) : Bytes :=
  byteSliceField 1 psh.Hash ++ fieldKey 2 0 ++ PutVarint psh.Total ++ structTerm

/-- The struct `CanonicalBlockID{Hash; PartsHeader}`. -/
def CanonicalBlockID (blockID : Types.CanonicalBlockID) : Bytes :=
  byteSliceField 1 blockID.Hash ++ fieldKey 2 3 ++ CanonicalPartSetHeader blockID.PartsHeader ++
    structTerm

/-- `cdc.MarshalBinaryBare(cv)` of a `CanonicalVote`: the type as a varint, height and round as
`fixed64`, the block id and the timestamp as structs, then the league ID. -/
def CanonicalVoteBare (cv : Types.CanonicalVote) : Bytes :=
  fieldKey 1 0 ++ PutUvarint cv.Type_.byte.toNat ++ fieldKey 2 1 ++ EncodeInt64 cv.Height ++
    fieldKey 3 1 ++ EncodeInt64 cv.Round ++ fieldKey 4 3 ++ CanonicalBlockID cv.BlockID ++
    fieldKey 5 3 ++ EncodeTime cv.Timestamp ++ byteSliceField 6 (stringBytes cv.LeagueID) ++
    structTerm

/-- `cdc.MarshalBinary(cv)`: the bare encoding after its length, which the code calls
`MarshalBinaryLengthPrefixed`. -/
def CanonicalVote (cv : Types.CanonicalVote) : Bytes := EncodeByteSlice (CanonicalVoteBare cv)

theorem PutUvarint_four : PutUvarint 4 = structTerm := by decide +kernel

theorem byteSliceField_append_inj {num : Nat} {a b : Bytes} (hnum : num * 8 + 2 ≠ 4)
    (h : byteSliceField num a ++ structTerm = byteSliceField num b ++ structTerm) : a = b := by
  unfold byteSliceField at h
  split_ifs at h with ha hb hb
  · rw [ha, hb]
  · -- a key against the closing byte, itself the varint `4`
    rw [List.nil_append, ← PutUvarint_four, fieldKey] at h
    have h' : PutUvarint 4 ++ [] = PutUvarint (num * 8 + 2) ++ (EncodeByteSlice b ++ PutUvarint 4) := by
      simpa only [List.append_nil, List.append_assoc] using h
    exact absurd (PutUvarint_append_inj h').1.symm hnum
  · rw [List.nil_append, ← PutUvarint_four, fieldKey] at h
    have h' : PutUvarint (num * 8 + 2) ++ (EncodeByteSlice a ++ PutUvarint 4) = PutUvarint 4 ++ [] := by
      simpa only [List.append_nil, List.append_assoc] using h
    exact absurd (PutUvarint_append_inj h').1 hnum
  · -- the same key, then the lengths, then bytes of that length
    simp only [fieldKey, EncodeByteSlice, List.append_assoc, List.append_cancel_left_eq] at h
    obtain ⟨hlen, h⟩ := PutUvarint_append_inj h
    exact List.append_inj_left h hlen

theorem PartSetHeader_injective : Function.Injective PartSetHeader := by
  intro a b h
  simp only [PartSetHeader, fieldKey, List.append_assoc, List.append_cancel_left_eq] at h
  obtain ⟨htotal, h⟩ := PutVarint_append_inj h
  have hhash := byteSliceField_append_inj (by omega) h
  cases a
  cases b
  simp_all

end Amino

/-- The amino codec of `third_party/amino`. -/
def aminoCodec : Codec := ⟨Amino.PartSetHeader, Amino.CanonicalVote⟩

theorem aminoCodec_keyCodec : BlockID.KeyCodec aminoCodec :=
  ⟨Amino.PartSetHeader_injective, by decide +kernel⟩

end Dgrid.Types
