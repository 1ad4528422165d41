import Dgrid.Types.VoteSet

/-! The commit of `core/types/block.go`, `VoteSet.MakeCommit` and `ValidatorSet.VerifyCommit`.
A `CommitSig` is a `Vote` (`type CommitSig Vote`), and converting one to the other changes
nothing. The memoized height, round, hash and bit array of a commit are caches of values
computed from its precommits; the model computes them when asked. -/

namespace Dgrid.Types
open Go

/-- `types.Commit`. -/
structure Commit where
  BlockID : BlockID
  Precommits : List (Option Vote)

def NewCommit (blockID : BlockID) (precommits : List (Option Vote)) : Commit := ⟨blockID, precommits⟩

/-- The errors of `Commit.ValidateBasic` and `ValidatorSet.VerifyCommit`. -/
inductive CommitError where
  /-- `"Commit cannot be for nil block"` -/
  | nilBlock
  /-- `"No precommits in commit"` -/
  | noPrecommits
  /-- `"Invalid commit vote. Expected precommit, got %v"` -/
  | notPrecommit (type_ : SignedMsgType)
  /-- `"Invalid commit precommit height. Expected %v, got %v"` -/
  | precommitHeight (expected got : Int)
  /-- `"Invalid commit precommit round. Expected %v, got %v"` -/
  | precommitRound (expected got : Int)
  /-- `"Invalid commit -- wrong set size: %v vs %v"` -/
  | wrongSetSize (size : Nat) (precommits : Nat)
  /-- `"Invalid commit -- wrong height: %v vs %v"` -/
  | wrongHeight (height got : Int)
  /-- `"Invalid commit -- wrong block id: want %v got %v"` -/
  | wrongBlockID (want got : BlockID)
  /-- `"Invalid commit -- invalid signature: %v"` -/
  | invalidSignature (precommit : Vote)
  /-- `errTooMuchChange{got, needed}` -/
  | tooMuchChange (got needed : Int)
deriving Repr, DecidableEq

/-- `memoizeHeightRound`: the height and round of the first precommit present. -/
def firstHeightRound : List (Option Vote) → Int × Int
  | [] => (0, 0)
  | none :: rest => firstHeightRound rest
  | some v :: _ => (v.Height, v.Round)

namespace Commit

def Height (commit : Commit) : Int := (firstHeightRound commit.Precommits).1

def Round (commit : Commit) : Int := (firstHeightRound commit.Precommits).2

/-- The loop of `ValidateBasic` over the precommits present. -/
def validatePrecommits (height round : Int) : List (Option Vote) → Option CommitError
  | [] => none
  | none :: rest => validatePrecommits height round rest
  | some pc :: rest =>
      if pc.Type_ ≠ PrecommitType then some (.notPrecommit pc.Type_)
      else if pc.Height ≠ height then some (.precommitHeight height pc.Height)
      else if pc.Round ≠ round then some (.precommitRound round pc.Round)
      else validatePrecommits height round rest

def ValidateBasic (commit : Commit) : Option CommitError :=
  if commit.BlockID.IsZero then some .nilBlock
  else if commit.Precommits.length = 0 then some .noPrecommits
  else validatePrecommits commit.Height commit.Round commit.Precommits

def VoteSignBytes (cdc : Codec) (leagueID : String) (cs : Vote) : Bytes := cs.SignBytes cdc leagueID

end Commit

namespace ValidatorSet

variable (cdc : Codec) (crypto : Crypto)

/-- The loop of `VerifyCommit`: check each precommit present against the validator at its
index, and tally the power of those for `blockID`. -/
def tallyPrecommits (vals : ValidatorSet) (leagueID : String) (blockID : BlockID) :
    Nat → Int → List (Option Vote) → Result (Except CommitError Int)
  | _, tallied, [] => .ok (.ok tallied)
  | idx, tallied, none :: rest => tallyPrecommits vals leagueID blockID (idx + 1) tallied rest
  | idx, tallied, some precommit :: rest =>
      match vals.GetByIndex idx with
      | none => .panic "invalid memory address or nil pointer dereference"
      | some (_, val) =>
          if !crypto.verifyBytes val.pubKey (Commit.VoteSignBytes cdc leagueID precommit)
              precommit.Signature then
            .ok (.error (.invalidSignature precommit))
          else
            let tallied :=
              if blockID.Equals precommit.BlockID then wrap64 (tallied + val.votingPower)
              else tallied
            tallyPrecommits vals leagueID blockID (idx + 1) tallied rest

/-- `vals.VerifyCommit(leagueID, blockID, height, commit)`: the error, if any, and the set after
`TotalVotingPower()` filled its cache. -/
def VerifyCommit (vals : ValidatorSet) (leagueID : String) (blockID : BlockID) (height : Int)
    (commit : Commit) : Result (Option CommitError × ValidatorSet) :=
  match commit.ValidateBasic with
  | some err => .ok (some err, vals)
  | none =>
    if vals.Size ≠ commit.Precommits.length then
      .ok (some (.wrongSetSize vals.Size commit.Precommits.length), vals)
    else if height ≠ commit.Height then .ok (some (.wrongHeight height commit.Height), vals)
    else if !blockID.Equals commit.BlockID then
      .ok (some (.wrongBlockID blockID commit.BlockID), vals)
    else do
      let r ← tallyPrecommits cdc crypto vals leagueID blockID 0 0 commit.Precommits
      match r with
      | .error err => .ok (some err, vals)
      | .ok talliedVotingPower => do
          let (total, vals) ← vals.TotalVotingPower
          if talliedVotingPower > (wrap64 (total * 2)).tdiv 3 then .ok (none, vals)
          else .ok (some (.tooMuchChange talliedVotingPower
            (wrap64 ((wrap64 (total * 2)).tdiv 3 + 1))), vals)

/-- The errors of `VerifyFutureCommit`: those of `VerifyCommit` on the new set, and its own. -/
inductive FutureCommitError where
  | verifyCommit (err : CommitError)
  /-- `"Blocks don't match - %d vs %d"`, returned for a wrong height and printing the rounds -/
  | blocksDontMatch (round got : Int)
  /-- `"Invalid commit -- wrong round: %v vs %v"` -/
  | wrongRound (round got : Int)
  /-- `"Invalid commit -- not precommit @ index %v"` -/
  | notPrecommit (idx : Nat)
  /-- `"Invalid commit -- invalid signature: %v"` -/
  | invalidSignature (precommit : Vote)
  /-- `errTooMuchChange{got, needed}` -/
  | tooMuchChange (got needed : Int)
deriving Repr, DecidableEq

/-- The loop of `VerifyFutureCommit` over the precommits present: check each one's height, round
and type, look its validator up by address in the old set, skip a validator missing there or
already seen, check the signature under the old validator's key, and tally the power of those
for `blockID`. The `seen` map is the list of the old set's indices seen. -/
def tallyOldPrecommits (oldVals : ValidatorSet) (leagueID : String) (blockID : BlockID)
    (height round : Int) : Nat → Int → List Int → List (Option Vote) → Except FutureCommitError Int
  | _, oldVotingPower, _, [] => .ok oldVotingPower
  | idx, oldVotingPower, seen, none :: rest =>
      tallyOldPrecommits oldVals leagueID blockID height round (idx + 1) oldVotingPower seen rest
  | idx, oldVotingPower, seen, some precommit :: rest =>
      if precommit.Height ≠ height then .error (.blocksDontMatch round precommit.Round)
      else if precommit.Round ≠ round then .error (.wrongRound round precommit.Round)
      else if precommit.Type_ ≠ PrecommitType then .error (.notPrecommit idx)
      else match oldVals.GetByAddress ⟨precommit.ValidatorAddress⟩ with
        | (_, none) =>
            tallyOldPrecommits oldVals leagueID blockID height round (idx + 1) oldVotingPower seen
              rest
        | (i, some val) =>
            -- the Go code shadows the loop's `idx` with the old set's index here
            if i ∈ seen then
              tallyOldPrecommits oldVals leagueID blockID height round (idx + 1) oldVotingPower
                seen rest
            else if !crypto.verifyBytes val.pubKey (Commit.VoteSignBytes cdc leagueID precommit)
                precommit.Signature then
              .error (.invalidSignature precommit)
            else
              let oldVotingPower :=
                if blockID.Equals precommit.BlockID then wrap64 (oldVotingPower + val.votingPower)
                else oldVotingPower
              tallyOldPrecommits oldVals leagueID blockID height round (idx + 1) oldVotingPower
                (i :: seen) rest

/-- `vals.VerifyFutureCommit(newSet, leagueID, blockID, height, commit)`: the error, if any, and
the old and new sets after `TotalVotingPower()` filled their caches. -/
def VerifyFutureCommit (vals newSet : ValidatorSet) (leagueID : String) (blockID : BlockID)
    (height : Int) (commit : Commit) :
    Result (Option FutureCommitError × ValidatorSet × ValidatorSet) := do
  let (err, newSet) ← newSet.VerifyCommit cdc crypto leagueID blockID height commit
  match err with
  | some err => .ok (some (.verifyCommit err), vals, newSet)
  | none =>
    match tallyOldPrecommits cdc crypto vals leagueID blockID height commit.Round 0 0 []
        commit.Precommits with
    | .error err => .ok (some err, vals, newSet)
    | .ok oldVotingPower => do
        let (total, oldVals) ← vals.TotalVotingPower
        if oldVotingPower ≤ (wrap64 (total * 2)).tdiv 3 then
          .ok (some (.tooMuchChange oldVotingPower (wrap64 ((wrap64 (total * 2)).tdiv 3 + 1))),
            oldVals, newSet)
        else .ok (none, oldVals, newSet)

end ValidatorSet

def VoteSet.MakeCommit (voteSet : VoteSet) : Result Commit :=
  if voteSet.type_ ≠ PrecommitType then
    .panic "Cannot MakeCommit() unless VoteSet.Type is PrecommitType"
  else match voteSet.maj23 with
    | none => .panic "Cannot MakeCommit() unless a blockhash has +2/3"
    | some maj23 => .ok (NewCommit maj23 voteSet.votes)

end Dgrid.Types
