import Dgrid.Types.Vote
import Dgrid.Types.ValidatorSet
import Dgrid.Common.BitArray

/-! `core/types/vote_set.go`: the votes of one height, round and type. `votes` is the canonical
vote of each validator; `votesByBlock` tallies, for each block key that is tracked, the votes
for that block; the first block to reach a two-thirds quorum becomes `maj23`, and its votes are
copied into `votes`. A Go map is a function to `Option`; a `*blockVotes` held in the map and
updated through it is the value stored back. -/

namespace Dgrid.Types
open Go Dgrid.Common

/-- `P2PID`. -/
abbrev P2PID := String

/-- `blockVotes`: the votes seen for one block. -/
structure BlockVotes where
  peerMaj23 : Bool
  bitArray : Option BitArray
  votes : List (Option Vote)
  sum : Int

def newBlockVotes (peerMaj23 : Bool) (numValidators : Nat) : BlockVotes :=
  ⟨peerMaj23, NewBitArray numValidators, List.replicate numValidators none, 0⟩

namespace BlockVotes

/-- `blockVotes.addVerifiedVote(vote, votingPower)`: a first vote of the validator is recorded
and counted; a second one is ignored. -/
def addVerifiedVote (vs : BlockVotes) (vote : Vote) (votingPower : Int) : Result BlockVotes := do
  let valIndex := vote.ValidatorIndex
  let existing ← index vs.votes valIndex
  match existing with
  | some _ => pure vs
  | none => do
      let (_, bitArray) ← BitArray.SetIndex vs.bitArray valIndex true
      let votes ← update vs.votes valIndex (fun _ => some vote)
      pure { vs with bitArray, votes, sum := wrap64 (vs.sum + votingPower) }

/-- `getByIndex(index)` on a possibly nil `*blockVotes`. -/
def getByIndex : Option BlockVotes → Int → Result (Option Vote)
  | none, _ => .ok none
  | some vs, i => index vs.votes i

end BlockVotes

/-- `types.VoteSet`. -/
structure VoteSet where
  leagueID : String
  height : Int
  round : Int
  type_ : SignedMsgType
  valSet : ValidatorSet
  votesBitArray : Option BitArray
  votes : List (Option Vote)
  sum : Int
  maj23 : Option BlockID
  votesByBlock : Bytes → Option BlockVotes
  peerMaj23s : P2PID → Option BlockID

def NewVoteSet (leagueID : String) (height round : Int) (type_ : SignedMsgType)
    (valSet : ValidatorSet) : Result VoteSet :=
  if height = 0 then .panic "Cannot make VoteSet for height == 0, doesn't make sense."
  else .ok
    { leagueID, height, round, type_, valSet
      votesBitArray := NewBitArray valSet.Size
      votes := List.replicate valSet.Size none
      sum := 0
      maj23 := none
      votesByBlock := fun _ => none
      peerMaj23s := fun _ => none }

/-- The errors `AddVote` returns, with what their messages print. -/
inductive VoteError where
  /-- `ErrVoteNil` -/
  | voteNil
  /-- `ErrVoteInvalidValidatorIndex`, `"Index < 0"` -/
  | negativeIndex
  /-- `ErrVoteInvalidValidatorAddress`, `"Empty address"` -/
  | emptyAddress
  /-- `ErrVoteUnexpectedStep`, `"Expected %d/%d/%d, but got %d/%d/%d"` -/
  | unexpectedStep (height round : Int) (type_ : SignedMsgType) (vote : Vote)
  /-- `ErrVoteInvalidValidatorIndex`, `"Cannot find validator %d in valSet of size %d"` -/
  | validatorNotFound (valIndex : Int) (size : Nat)
  /-- `ErrVoteInvalidValidatorAddress`, `"vote.ValidatorAddress (%X) does not match address (%X)
  for vote.ValidatorIndex (%d)"` -/
  | addressMismatch (valAddr : Bytes) (lookupAddr : Address) (valIndex : Int)
  /-- `ErrVoteNonDeterministicSignature`, `"Existing vote: %v; New vote: %v"` -/
  | nonDeterministicSignature (existing vote : Vote)
  /-- `"Failed to verify vote with LeagueID %s and PubKey %s"` around the error of `Verify` -/
  | verifyFailed (err : Vote.VerifyError)
  /-- `ErrVoteConflictingVotes`: the evidence of the two votes -/
  | conflictingVotes (pubKey : PubKey) (voteA voteB : Vote)
deriving Repr, DecidableEq

/-- The error of `SetPeerMaj23`, `"SetPeerMaj23: Received conflicting blockID from peer %v.
Got %v, expected %v"`. -/
structure PeerMaj23Error where
  peerID : P2PID
  got : BlockID
  expected : BlockID
deriving Repr

/-- The copy of the quorum's votes into `votes`: `for i, vote := range votesByBlock.votes`. -/
def copyVotes : Nat → List (Option Vote) → List (Option Vote) → Result (List (Option Vote))
  | _, votes, [] => .ok votes
  | i, votes, none :: rest => copyVotes (i + 1) votes rest
  | i, votes, some vote :: rest => do
      let votes ← update votes i (fun _ => some vote)
      copyVotes (i + 1) votes rest

namespace VoteSet

variable (cdc : Codec) (crypto : Crypto)

/-- `getVote(valIndex, blockKey)`: the canonical vote if it is for `blockKey`, else the vote
tallied for `blockKey`. -/
def getVote (voteSet : VoteSet) (valIndex : Int) (blockKey : Bytes) : Result (Option Vote) := do
  let existing ← index voteSet.votes valIndex
  match existing with
  | some e =>
      if e.BlockID.Key cdc = blockKey then pure (some e)
      else BlockVotes.getByIndex (voteSet.votesByBlock blockKey) valIndex
  | none => BlockVotes.getByIndex (voteSet.votesByBlock blockKey) valIndex

/-- The tally half of `addVerifiedVote`, from `origSum := votesByBlock.sum` on: add the vote to
the block's votes and, on the first quorum, record `maj23` and copy the block's votes over. -/
def tallyVote (voteSet : VoteSet) (bv : BlockVotes) (vote : Vote) (blockKey : Bytes)
    (votingPower : Int) : Result VoteSet := do
  let origSum := bv.sum
  let (total, valSet) ← voteSet.valSet.TotalVotingPower
  let voteSet := { voteSet with valSet }
  let quorum := wrap64 ((wrap64 (total * 2)).tdiv 3 + 1)
  let bv ← bv.addVerifiedVote vote votingPower
  let voteSet := { voteSet with votesByBlock := Function.update voteSet.votesByBlock blockKey bv }
  if origSum < quorum ∧ quorum ≤ bv.sum ∧ voteSet.maj23 = none then do
    let votes ← copyVotes 0 voteSet.votes bv.votes
    pure { voteSet with maj23 := some vote.BlockID, votes }
  else pure voteSet

/-- The canonical half of `addVerifiedVote`: a first vote of the validator is recorded and
counted; a later one is the conflicting vote, and replaces the canonical one only when it is for
the quorum's block. -/
def recordVote (voteSet : VoteSet) (vote : Vote) (blockKey : Bytes) (votingPower : Int) :
    Result (Option Vote × VoteSet) := do
  let valIndex := vote.ValidatorIndex
  let existing ← index voteSet.votes valIndex
  match existing with
  | some e =>
      if e.BlockID.Equals vote.BlockID then
        .panic "addVerifiedVote does not expect duplicate votes"
      else if voteSet.maj23.map (BlockID.Key cdc) = some blockKey then do
        let votes ← update voteSet.votes valIndex (fun _ => some vote)
        let (_, votesBitArray) ← BitArray.SetIndex voteSet.votesBitArray valIndex true
        pure (some e, { voteSet with votes, votesBitArray })
      else pure (some e, voteSet)
  | none => do
      let votes ← update voteSet.votes valIndex (fun _ => some vote)
      let (_, votesBitArray) ← BitArray.SetIndex voteSet.votesBitArray valIndex true
      pure (none, { voteSet with votes, votesBitArray, sum := wrap64 (voteSet.sum + votingPower) })

/-- `addVerifiedVote(vote, blockKey, votingPower)`: whether the vote was added, the canonical
vote it conflicts with, and the vote set after. -/
def addVerifiedVote (voteSet : VoteSet) (vote : Vote) (blockKey : Bytes) (votingPower : Int) :
    Result ((Bool × Option Vote) × VoteSet) := do
  let (conflicting, voteSet) ← recordVote cdc voteSet vote blockKey votingPower
  match voteSet.votesByBlock blockKey with
  | some bv =>
      -- a conflicting vote is tallied only for a block some peer claims a quorum for
      if conflicting.isSome ∧ !bv.peerMaj23 then pure ((false, conflicting), voteSet)
      else do
        let voteSet ← tallyVote voteSet bv vote blockKey votingPower
        pure ((true, conflicting), voteSet)
  | none =>
      if conflicting.isSome then pure ((false, conflicting), voteSet)
      else do
        let voteSet ← tallyVote voteSet (newBlockVotes false voteSet.valSet.Size) vote blockKey
          votingPower
        pure ((true, conflicting), voteSet)

/-- `addVote(vote)`: the checks, in the code's order, then `addVerifiedVote`. -/
def addVote (voteSet : VoteSet) (vote? : Option Vote) :
    Result ((Bool × Option VoteError) × VoteSet) :=
  match vote? with
  | none => .ok ((false, some .voteNil), voteSet)
  | some vote =>
    let valIndex := vote.ValidatorIndex
    let valAddr := vote.ValidatorAddress
    let blockKey := vote.BlockID.Key cdc
    if valIndex < 0 then .ok ((false, some .negativeIndex), voteSet)
    else if valAddr.isEmpty then .ok ((false, some .emptyAddress), voteSet)
    else if vote.Height ≠ voteSet.height ∨ vote.Round ≠ voteSet.round ∨
        vote.Type_ ≠ voteSet.type_ then
      .ok ((false, some (.unexpectedStep voteSet.height voteSet.round voteSet.type_ vote)), voteSet)
    else match voteSet.valSet.GetByIndex valIndex with
      | none => .ok ((false, some (.validatorNotFound valIndex voteSet.valSet.Size)), voteSet)
      | some (lookupAddr, val) =>
        if valAddr ≠ lookupAddr.bytes then
          .ok ((false, some (.addressMismatch valAddr lookupAddr valIndex)), voteSet)
        else do
          let existing? ← voteSet.getVote cdc valIndex blockKey
          match existing? with
          | some existing =>
              if existing.Signature = vote.Signature then .ok ((false, none), voteSet)
              else .ok ((false, some (.nonDeterministicSignature existing vote)), voteSet)
          | none =>
            match vote.Verify cdc crypto voteSet.leagueID val.pubKey with
            | some err => .ok ((false, some (.verifyFailed err)), voteSet)
            | none => do
              let ((added, conflicting), voteSet) ←
                voteSet.addVerifiedVote cdc vote blockKey val.votingPower
              match conflicting with
              | some c => .ok ((added, some (.conflictingVotes val.pubKey c vote)), voteSet)
              | none =>
                  if !added then .panic "Expected to add non-conflicting vote"
                  else .ok ((added, none), voteSet)

def AddVote (voteSet : VoteSet) (vote? : Option Vote) :
    Result ((Bool × Option VoteError) × VoteSet) :=
  voteSet.addVote cdc crypto vote?

/-- `SetPeerMaj23(peerID, blockID)`: a peer's claim of a quorum makes its block tracked. -/
def SetPeerMaj23 (voteSet : VoteSet) (peerID : P2PID) (blockID : BlockID) :
    Option PeerMaj23Error × VoteSet :=
  let blockKey := blockID.Key cdc
  match voteSet.peerMaj23s peerID with
  | some existing =>
      if existing.Equals blockID then (none, voteSet)
      else (some ⟨peerID, blockID, existing⟩, voteSet)
  | none =>
    let voteSet := { voteSet with
      peerMaj23s := Function.update voteSet.peerMaj23s peerID (some blockID) }
    match voteSet.votesByBlock blockKey with
    | some bv =>
        if bv.peerMaj23 then (none, voteSet)
        else (none, { voteSet with
          votesByBlock := Function.update voteSet.votesByBlock blockKey
            (some { bv with peerMaj23 := true }) })
    | none => (none, { voteSet with
        votesByBlock := Function.update voteSet.votesByBlock blockKey
          (some (newBlockVotes true voteSet.valSet.Size)) })

def TwoThirdsMajority (voteSet : VoteSet) : Option BlockID := voteSet.maj23

end VoteSet

end Dgrid.Types
