import Dgrid.Types.Commit

/-! The full commits of the light client (lite/commit.go), the signed header they carry with its
`ValidateBasic` (core/types/block.go), the providers the client reads (lite/provider.go) and the
errors of lite/errors. A header keeps the fields the client reads; its hash and a validator set's
are the Merkle roots of their encodings, given as `Hashes`. The nil checks of pointers have no
counterpart. -/

namespace Dgrid.Lite

open Go Dgrid.Types

/-- `types.SignedHeader`: the header's fields the light client reads, and the commit. -/
structure SignedHeader where
  LeagueID : String
  Height : Int
  ValidatorsHash : Bytes
  NextValidatorsHash : Bytes
  Commit : Commit

/-- `FullCommit`. -/
structure FullCommit where
  SignedHeader : SignedHeader
  Validators : ValidatorSet
  NextValidators : ValidatorSet

def FullCommit.Height (fc : FullCommit) : Int := fc.SignedHeader.Height

/-- The Merkle roots `Header.Hash()` and `ValidatorSet.Hash()` compute once past their nil
cases. -/
structure Hashes where
  header : SignedHeader → Bytes
  validators : List Validator → Bytes

/-- `sh.Hash()`: nil for a header without a validator set hash. -/
def SignedHeader.Hash (H : Hashes) (sh : SignedHeader) : Bytes :=
  if sh.ValidatorsHash.length = 0 then [] else H.header sh

end Dgrid.Lite

/-- `vals.Hash()`: nil for an empty set. -/
def Dgrid.Types.ValidatorSet.Hash (H : Dgrid.Lite.Hashes) (vals : Dgrid.Types.ValidatorSet) :
    Go.Bytes :=
  if vals.validators.length = 0 then [] else H.validators vals.validators

namespace Dgrid.Lite

open Go Dgrid.Types

/-- The errors of `SignedHeader.ValidateBasic`. -/
inductive SignedHeaderError where
  /-- `"Header belongs to another chain '%s' not '%s'"` -/
  | otherChain (got want : String)
  /-- `"SignedHeader header and commit height mismatch: %v vs %v"` -/
  | heightMismatch (height commitHeight : Int)
  /-- `"SignedHeader commit signs block %X, header is block %X"` -/
  | hashMismatch (chash hhash : Bytes)
  /-- `"commit.ValidateBasic failed during SignedHeader.ValidateBasic"` -/
  | commit (err : CommitError)
deriving DecidableEq

/-- The errors of the light client. -/
inductive LiteError where
  /-- `lerr.ErrCommitNotFound()` -/
  | commitNotFound
  /-- `lerr.ErrUnexpectedValidators(got, want)`: `"Validator set is different. Got %X want %X"` -/
  | unexpectedValidators (got want : Bytes)
  /-- `lerr.ErrUnknownValidators(chainID, height)` -/
  | unknownValidators (chainID : String) (height : Int)
  /-- an error of `VerifyFutureCommit` -/
  | futureCommit (err : ValidatorSet.FutureCommitError)
  /-- an error of `VerifyCommit` -/
  | commit (err : CommitError)
  /-- an error of `SignedHeader.ValidateBasic` -/
  | header (err : SignedHeaderError)
  /-- `"need FullCommit.Validators"` -/
  | needValidators
  /-- `"header has vhash %X but valset hash is %X"` -/
  | validatorsHash (vhash hash : Bytes)
  /-- `"need FullCommit.NextValidators"` -/
  | needNextValidators
  /-- `"header has next vhash %X but next valset hash is %X"` -/
  | nextValidatorsHash (vhash hash : Bytes)
  /-- `"BaseVerifier chainID is %v, cannot verify chainID %v"` -/
  | verifierChain (chainID got : String)
  /-- `"BaseVerifier height is %v, cannot verify height %v"` -/
  | verifierHeight (height got : Int)
  /-- `cmn.ErrorWrap(err, "in verify")` -/
  | inVerify (err : LiteError)
  /-- an error a provider reports -/
  | other (msg : String)
deriving DecidableEq

/-- `types.IsErrTooMuchChange(err)`: an `errTooMuchChange`, from the new set's `VerifyCommit` or
from the old set's tally. -/
def IsErrTooMuchChange : LiteError → Bool
  | .futureCommit (.tooMuchChange _ _) => true
  | .futureCommit (.verifyCommit (.tooMuchChange _ _)) => true
  | _ => false

def IsErrCommitNotFound : LiteError → Bool
  | .commitNotFound => true
  | _ => false

def IsErrUnknownValidators : LiteError → Bool
  | .unknownValidators _ _ => true
  | _ => false

/-- `Provider`, as the light client calls it. -/
structure Provider where
  LatestFullCommit : String → Int → Int → Except LiteError FullCommit
  ValidatorSet : String → Int → Except LiteError ValidatorSet

section Validate
variable (cdc : Codec) (crypto : Crypto) (H : Hashes)

def SignedHeader.ValidateBasic (sh : SignedHeader) (leagueID : String) : Option SignedHeaderError :=
  if sh.LeagueID ≠ leagueID then some (.otherChain sh.LeagueID leagueID)
  else if sh.Commit.Height ≠ sh.Height then some (.heightMismatch sh.Height sh.Commit.Height)
  else if sh.Hash H ≠ sh.Commit.BlockID.Hash then
    some (.hashMismatch sh.Commit.BlockID.Hash (sh.Hash H))
  else (sh.Commit.ValidateBasic).map .commit

/-- `fc.ValidateFull(chainID)`. The total voting power `VerifyCommit` caches in the validator set
is not carried back into `fc`: it is the value a later call computes again. -/
def FullCommit.ValidateFull (fc : FullCommit) (chainID : String) : Result (Option LiteError) :=
  if fc.Validators.Size = 0 then .ok (some .needValidators)
  else if fc.SignedHeader.ValidatorsHash ≠ fc.Validators.Hash H then
    .ok (some (.validatorsHash fc.SignedHeader.ValidatorsHash (fc.Validators.Hash H)))
  else if fc.NextValidators.Size = 0 then .ok (some .needNextValidators)
  else if fc.SignedHeader.NextValidatorsHash ≠ fc.NextValidators.Hash H then
    .ok (some (.nextValidatorsHash fc.SignedHeader.NextValidatorsHash (fc.NextValidators.Hash H)))
  else match fc.SignedHeader.ValidateBasic H chainID with
    | some err => .ok (some (.header err))
    | none => do
      let (err, _) ← fc.Validators.VerifyCommit cdc crypto fc.SignedHeader.LeagueID
        fc.SignedHeader.Commit.BlockID fc.SignedHeader.Height fc.SignedHeader.Commit
      pure (err.map .commit)

theorem ValidateFull_ok {fc : FullCommit} {chainID : String}
    (h : fc.ValidateFull cdc crypto H chainID = .ok none) :
    fc.Validators.Size ≠ 0 ∧ fc.SignedHeader.ValidatorsHash = fc.Validators.Hash H ∧
      fc.NextValidators.Size ≠ 0 ∧ fc.SignedHeader.NextValidatorsHash = fc.NextValidators.Hash H ∧
      fc.SignedHeader.ValidateBasic H chainID = none ∧
      ∃ vals, fc.Validators.VerifyCommit cdc crypto fc.SignedHeader.LeagueID
        fc.SignedHeader.Commit.BlockID fc.SignedHeader.Height fc.SignedHeader.Commit = .ok (none, vals) := by
  unfold FullCommit.ValidateFull at h
  split_ifs at h with h₁ h₂ h₃ h₄ <;> try cases h
  split at h
  · cases h
  · rename_i hb
    obtain ⟨⟨err, vals⟩, hv, hrest⟩ := Result.bind_eq_ok.mp h
    cases err with
    | some e => cases hrest
    | none => exact ⟨h₁, not_not.mp h₂, h₃, not_not.mp h₄, hb, vals, hv⟩

end Validate

end Dgrid.Lite
