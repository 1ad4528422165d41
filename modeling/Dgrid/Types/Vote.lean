import Dgrid.Types.Validator

/-! `core/types/vote.go`, `canonical.go`, `signed_msg_type.go` and the block identifiers of
`block.go` and `part_set.go`. The amino codec and the public-key cryptography live outside
this package and are parameters: `Codec` and `Crypto` hold the functions the code calls. -/

namespace Dgrid.Types
open Go

/-- `SignedMsgType`, a byte. -/
structure SignedMsgType where
  byte : UInt8
deriving DecidableEq, Repr, Inhabited

def PrevoteType : SignedMsgType := ⟨0x01⟩

def PrecommitType : SignedMsgType := ⟨0x02⟩

def ProposalType : SignedMsgType := ⟨0x20⟩

def IsVoteTypeValid (t : SignedMsgType) : Bool := t = PrevoteType || t = PrecommitType

/-- `types.PartSetHeader`. -/
structure PartSetHeader where
  Total : Int
  Hash : Bytes
deriving DecidableEq, Repr, Inhabited

def PartSetHeader.IsZero (psh : PartSetHeader) : Bool := psh.Total = 0 && psh.Hash.isEmpty

def PartSetHeader.Equals (psh other : PartSetHeader) : Bool :=
  psh.Total = other.Total && psh.Hash = other.Hash

/-- `types.BlockID`. -/
structure BlockID where
  Hash : Bytes
  PartsHeader : PartSetHeader
deriving DecidableEq, Repr, Inhabited

def tmhashSize : Nat := 32

/-- `time.Time`, as nanoseconds since the epoch. -/
abbrev Time := Int

/-- `types.Vote`. -/
structure Vote where
  Type_ : SignedMsgType
  Height : Int
  Round : Int
  BlockID : BlockID
  Timestamp : Time
  ValidatorAddress : Bytes
  ValidatorIndex : Int
  Signature : Bytes
deriving DecidableEq, Repr, Inhabited

/-- `CanonicalPartSetHeader`. -/
structure CanonicalPartSetHeader where
  Hash : Bytes
  Total : Int
deriving DecidableEq, Repr

/-- `CanonicalBlockID`. -/
structure CanonicalBlockID where
  Hash : Bytes
  PartsHeader : CanonicalPartSetHeader
deriving DecidableEq, Repr

/-- `CanonicalVote`. -/
structure CanonicalVote where
  Type_ : SignedMsgType
  Height : Int
  Round : Int
  BlockID : CanonicalBlockID
  Timestamp : Time
  LeagueID : String
deriving DecidableEq, Repr

/-- The amino codec, as far as the vote code uses it. -/
structure Codec where
  /-- `cdc.MarshalBinaryBare(PartSetHeader)` -/
  marshalPartSetHeader : PartSetHeader → Bytes
  /-- `cdc.MarshalBinaryLengthPrefixed(CanonicalVote)` -/
  marshalCanonicalVote : CanonicalVote → Bytes

/-- `crypto.PubKey`, as far as the vote code uses it. -/
structure Crypto where
  /-- `PubKey.Address()` -/
  address : PubKey → Bytes
  /-- `PubKey.VerifyBytes(msg, sig)` -/
  verifyBytes : PubKey → Bytes → Bytes → Bool

/-- A key scheme to run the code with: the address of a key is the key, and a signature of a
message is the key followed by the message. -/
def echoCrypto : Crypto := ⟨id, fun pk msg sig => sig == pk ++ msg⟩

namespace BlockID

def Equals (blockID other : BlockID) : Bool :=
  blockID.Hash = other.Hash && blockID.PartsHeader.Equals other.PartsHeader

/-- `BlockID.Key()`: the hash followed by the amino encoding of the part-set header. -/
def Key (cdc : Codec) (blockID : BlockID) : Bytes :=
  blockID.Hash ++ cdc.marshalPartSetHeader blockID.PartsHeader

def IsZero (blockID : BlockID) : Bool := blockID.Hash.isEmpty && blockID.PartsHeader.IsZero

def IsComplete (blockID : BlockID) : Bool :=
  blockID.Hash.length = tmhashSize && decide (blockID.PartsHeader.Total > 0) &&
    blockID.PartsHeader.Hash.length = tmhashSize

theorem equals_iff {a b : BlockID} : a.Equals b = true ↔ a = b := by
  obtain ⟨h, t, ph⟩ := a
  obtain ⟨h', t', ph'⟩ := b
  simp [Equals, PartSetHeader.Equals]

/-- What the code relies on of the codec for keys: the header encoding is injective, and the
zero header (the one a nil block carries) encodes to fewer bytes than a hash. -/
structure KeyCodec (cdc : Codec) : Prop where
  injective : Function.Injective cdc.marshalPartSetHeader
  zero_short : (cdc.marshalPartSetHeader ⟨0, []⟩).length < tmhashSize

theorem key_injective {cdc : Codec} (hc : KeyCodec cdc) {a b : BlockID}
    (ha : a.IsZero ∨ a.IsComplete) (hb : b.IsZero ∨ b.IsComplete) (h : a.Key cdc = b.Key cdc) :
    a = b := by
  obtain ⟨h₁, t₁, p₁⟩ := a
  obtain ⟨h₂, t₂, p₂⟩ := b
  simp only [IsZero, IsComplete, PartSetHeader.IsZero, Bool.and_eq_true, decide_eq_true_eq,
    List.isEmpty_iff] at ha hb
  simp only [Key] at h
  have hlen := congrArg List.length h
  simp only [List.length_append] at hlen
  -- a zero id's key is shorter than a hash, a complete id's key is not
  rcases ha with ⟨rfl, rfl, rfl⟩ | ⟨⟨ha, -⟩, -⟩ <;> rcases hb with ⟨rfl, rfl, rfl⟩ | ⟨⟨hb, -⟩, -⟩
  · rfl
  · have := hc.zero_short
    simp at hlen
    omega
  · have := hc.zero_short
    simp at hlen
    omega
  · obtain ⟨rfl, hp⟩ := List.append_inj h (by rw [ha, hb])
    obtain ⟨rfl, rfl⟩ := PartSetHeader.mk.inj (hc.injective hp)
    rfl

end BlockID

def CanonicalizeVote (leagueID : String) (vote : Vote) : CanonicalVote where
  Type_ := vote.Type_
  Height := vote.Height
  Round := vote.Round
  BlockID := ⟨vote.BlockID.Hash, ⟨vote.BlockID.PartsHeader.Hash, vote.BlockID.PartsHeader.Total⟩⟩
  Timestamp := vote.Timestamp
  LeagueID := leagueID

namespace Vote

def SignBytes (cdc : Codec) (leagueID : String) (vote : Vote) : Bytes :=
  cdc.marshalCanonicalVote (CanonicalizeVote leagueID vote)

/-- The errors of `Vote.Verify`. -/
inductive VerifyError where
  /-- `ErrVoteInvalidValidatorAddress` -/
  | invalidValidatorAddress
  /-- `ErrVoteInvalidSignature` -/
  | invalidSignature
deriving DecidableEq, Repr

def Verify (cdc : Codec) (crypto : Crypto) (vote : Vote) (leagueID : String) (pubKey : PubKey) :
    Option VerifyError :=
  if crypto.address pubKey ≠ vote.ValidatorAddress then some .invalidValidatorAddress
  else if !crypto.verifyBytes pubKey (vote.SignBytes cdc leagueID) vote.Signature then
    some .invalidSignature
  else none

theorem verify_eq_none {cdc : Codec} {crypto : Crypto} {vote : Vote} {leagueID : String}
    {pubKey : PubKey} (h : vote.Verify cdc crypto leagueID pubKey = none) :
    crypto.address pubKey = vote.ValidatorAddress ∧
      crypto.verifyBytes pubKey (vote.SignBytes cdc leagueID) vote.Signature = true := by
  unfold Verify at h
  split_ifs at h with h₁ h₂
  exact ⟨not_not.mp h₁, by simpa using h₂⟩

end Vote

end Dgrid.Types
