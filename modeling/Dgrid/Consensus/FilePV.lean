import Dgrid.Types.Vote

/-! `core/consensus/validator/file.go`: the file-based private validator signs a vote or a
proposal only for a height, round and step past the last one it signed, and for the last one
again only when the message differs from the signed one in its timestamp alone, in which case the
old signature is handed back. The amino codec, the private key and the clock are parameters. -/

namespace Dgrid.Types
open Go

/-- `types.Proposal`. -/
structure Proposal where
  Type_ : SignedMsgType
  Height : Int
  Round : Int
  POLRound : Int
  BlockID : BlockID
  Timestamp : Time
  Signature : Bytes
deriving DecidableEq

/-- `CanonicalProposal`. -/
structure CanonicalProposal where
  Type_ : SignedMsgType
  Height : Int
  Round : Int
  POLRound : Int
  BlockID : CanonicalBlockID
  Timestamp : Time
  LeagueID : String
deriving DecidableEq

def CanonicalizeProposal (leagueID : String) (proposal : Proposal) : CanonicalProposal where
  Type_ := ProposalType
  Height := proposal.Height
  Round := proposal.Round
  POLRound := proposal.POLRound
  BlockID := ⟨proposal.BlockID.Hash,
    ⟨proposal.BlockID.PartsHeader.Hash, proposal.BlockID.PartsHeader.Total⟩⟩
  Timestamp := proposal.Timestamp
  LeagueID := leagueID

end Dgrid.Types

namespace Dgrid.Consensus
open Go Dgrid.Types

/-- The amino codec as far as the signer uses it, beside the vote encoding. -/
structure PVCodec extends Codec where
  /-- `cdc.UnmarshalBinaryLengthPrefixed(bz, &CanonicalVote)` -/
  unmarshalCanonicalVote : Bytes → Option CanonicalVote
  /-- `cdc.MarshalJSON(CanonicalVote)` -/
  marshalJSONCanonicalVote : CanonicalVote → Bytes
  /-- `cdc.MarshalBinaryLengthPrefixed(CanonicalProposal)` -/
  marshalCanonicalProposal : CanonicalProposal → Bytes
  /-- `cdc.UnmarshalBinaryLengthPrefixed(bz, &CanonicalProposal)` -/
  unmarshalCanonicalProposal : Bytes → Option CanonicalProposal

def Proposal.SignBytes (cdc : PVCodec) (leagueID : String) (proposal : Proposal) : Bytes :=
  cdc.marshalCanonicalProposal (CanonicalizeProposal leagueID proposal)

/-- `stepNone`, the step of a sign state that has signed nothing. -/
def stepNone : Int := 0

def stepPropose : Int := 1

def stepPrevote : Int := 2

def stepPrecommit : Int := 3

def voteToStep (vote : Vote) : Result Int :=
  if vote.Type_ = PrevoteType then .ok stepPrevote
  else if vote.Type_ = PrecommitType then .ok stepPrecommit
  else .panic "Unknown vote type"

/-- `FilePVLastSignState`, without the path it is saved to. A nil slice is `none`. -/
structure FilePVLastSignState where
  Height : Int
  Round : Int
  Step : Int
  Signature : Option Bytes
  SignBytes : Option Bytes
deriving DecidableEq

/-- The errors the signer returns. -/
inductive SignError where
  /-- `"height regression. Got %v, last height %v"` -/
  | heightRegression (height lastHeight : Int)
  /-- `"round regression at height %v. Got %v, last round %v"` -/
  | roundRegression (height round lastRound : Int)
  /-- `"step regression at height %v round %v. Got %v, last step %v"` -/
  | stepRegression (height round step lastStep : Int)
  /-- `"no SignBytes found"` -/
  | noSignBytes
  /-- `"conflicting data"` -/
  | conflictingData
  /-- an error of `PrivKey.Sign` -/
  | sign (err : String)
deriving DecidableEq

namespace FilePVLastSignState

/-- `lss.CheckHRS(height, round, step)`: whether the last signature is to be reused, or the
error of a regression. -/
def CheckHRS (lss : FilePVLastSignState) (height round step : Int) :
    Result (Except SignError Bool) :=
  if lss.Height > height then .ok (.error (.heightRegression height lss.Height))
  else if lss.Height = height then
    if lss.Round > round then .ok (.error (.roundRegression height round lss.Round))
    else if lss.Round = round then
      if lss.Step > step then .ok (.error (.stepRegression height round step lss.Step))
      else if lss.Step = step then
        match lss.SignBytes with
        | some _ =>
            if lss.Signature.isNone then .panic "pv: Signature is nil but SignBytes is not!"
            else .ok (.ok true)
        | none => .ok (.error .noSignBytes)
      else .ok (.ok false)
    else .ok (.ok false)
  else .ok (.ok false)

/-- `pv.saveSigned(height, round, step, signBytes, sig)`, without the write to the state
file. -/
def saveSigned (_lss : FilePVLastSignState) (height round step : Int) (signBytes sig : Bytes) :
    FilePVLastSignState :=
  ⟨height, round, step, some sig, some signBytes⟩

end FilePVLastSignState

/-- The sign state `GenFilePV` gives a new validator, and `Reset` puts back: step `stepNone`,
nothing signed. -/
def GenFilePV : FilePVLastSignState := ⟨0, 0, stepNone, none, none⟩

variable (cdc : PVCodec)

/-- `checkVotesOnlyDifferByTimestamp(lastSignBytes, newSignBytes)` at the time `now`: the
timestamp of the last vote, and whether the two votes agree once given one timestamp. -/
def checkVotesOnlyDifferByTimestamp (now : Time) (lastSignBytes newSignBytes : Bytes) :
    Result (Time × Bool) :=
  match cdc.unmarshalCanonicalVote lastSignBytes, cdc.unmarshalCanonicalVote newSignBytes with
  | none, _ => .panic "LastSignBytes cannot be unmarshalled into vote"
  | some _, none => .panic "signBytes cannot be unmarshalled into vote"
  | some lastVote, some newVote =>
      .ok (lastVote.Timestamp,
        cdc.marshalJSONCanonicalVote { newVote with Timestamp := now } =
          cdc.marshalJSONCanonicalVote { lastVote with Timestamp := now })

/-- `checkProposalsOnlyDifferByTimestamp(lastSignBytes, newSignBytes)` at the time `now`. -/
def checkProposalsOnlyDifferByTimestamp (now : Time) (lastSignBytes newSignBytes : Bytes) :
    Result (Time × Bool) :=
  match cdc.unmarshalCanonicalProposal lastSignBytes,
      cdc.unmarshalCanonicalProposal newSignBytes with
  | none, _ => .panic "LastSignBytes cannot be unmarshalled into proposal"
  | some _, none => .panic "signBytes cannot be unmarshalled into proposal"
  | some lastProposal, some newProposal =>
      .ok (lastProposal.Timestamp,
        cdc.marshalCanonicalProposal { newProposal with Timestamp := now } =
          cdc.marshalCanonicalProposal { lastProposal with Timestamp := now })

/-- What a sign request of the signer does once the message's height, round, step and sign
bytes are known, shared by votes and proposals: the check against the last sign state, then a
reuse of the last signature or a fresh one. The result is the timestamp and signature to set on
the message, or the error, and the sign state after. `onlyDifferByTimestamp` is the comparison of
the message kind; `sign` is `PrivKey.Sign`. -/
def signMsg (onlyDifferByTimestamp : Bytes → Bytes → Result (Time × Bool))
    (sign : Bytes → Except String Bytes) (lss : FilePVLastSignState)
    (height round step : Int) (signBytes : Bytes) (timestamp : Time) :
    Result (Except SignError (Time × Bytes) × FilePVLastSignState) := do
  let sameHRS ← lss.CheckHRS height round step
  match sameHRS with
  | .error err => .ok (.error err, lss)
  | .ok true =>
      -- we might have crashed after signing and before the message reached the WAL
      if signBytes = lss.SignBytes.getD [] then .ok (.ok (timestamp, lss.Signature.getD []), lss)
      else do
        let (lastTime, ok) ← onlyDifferByTimestamp (lss.SignBytes.getD []) signBytes
        if ok then .ok (.ok (lastTime, lss.Signature.getD []), lss)
        else .ok (.error .conflictingData, lss)
  | .ok false =>
      match sign signBytes with
      | .error err => .ok (.error (.sign err), lss)
      | .ok sig => .ok (.ok (timestamp, sig), lss.saveSigned height round step signBytes sig)

/-- `pv.signVote(chainID, vote)`: the vote with its signature (and, when the last signature is
reused, the last timestamp) set, or the error, and the sign state after. -/
def signVote (now : Time) (sign : Bytes → Except String Bytes) (lss : FilePVLastSignState)
    (chainID : String) (vote : Vote) : Result (Except SignError Vote × FilePVLastSignState) := do
  let step ← voteToStep vote
  let (res, lss) ← signMsg (checkVotesOnlyDifferByTimestamp cdc now) sign lss vote.Height
    vote.Round step (vote.SignBytes cdc.toCodec chainID) vote.Timestamp
  pure (res.map fun (t, sig) => { vote with Timestamp := t, Signature := sig }, lss)

def signProposal (now : Time) (sign : Bytes → Except String Bytes) (lss : FilePVLastSignState)
    (chainID : String) (proposal : Proposal) :
    Result (Except SignError Proposal × FilePVLastSignState) := do
  let (res, lss) ← signMsg (checkProposalsOnlyDifferByTimestamp cdc now) sign lss
    proposal.Height proposal.Round stepPropose (Proposal.SignBytes cdc chainID proposal) proposal.Timestamp
  pure (res.map fun (t, sig) => { proposal with Timestamp := t, Signature := sig }, lss)

/-- The errors of the exported signing calls, each wrapping the error of the check. -/
inductive FilePVError where
  /-- `"error signing vote: %v"` -/
  | signingVote (err : SignError)
  /-- `"error signing proposal: %v"` -/
  | signingProposal (err : SignError)
deriving DecidableEq

def SignVote (now : Time) (sign : Bytes → Except String Bytes) (lss : FilePVLastSignState)
    (chainID : String) (vote : Vote) : Result (Except FilePVError Vote × FilePVLastSignState) := do
  let (res, lss) ← signVote cdc now sign lss chainID vote
  pure (res.mapError .signingVote, lss)

def SignProposal (now : Time) (sign : Bytes → Except String Bytes) (lss : FilePVLastSignState)
    (chainID : String) (proposal : Proposal) :
    Result (Except FilePVError Proposal × FilePVLastSignState) := do
  let (res, lss) ← signProposal cdc now sign lss chainID proposal
  pure (res.mapError .signingProposal, lss)

end Dgrid.Consensus
