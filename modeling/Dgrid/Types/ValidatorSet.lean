import Dgrid.Types.Validator
import Dgrid.Lib.KeyedList

/-! `core/types/validator_set.go`: the validator set, sorted by address, with its cached total
voting power and its proposer pointer; the change-set pipeline (`processChanges`,
`verifyRemovals`, `verifyUpdates`, `computeNewPriorities`, `applyUpdates`, `applyRemovals`) and
the proposer-priority rotation (`RescalePriorities`, `shiftByAvgProposerPriority`,
`incrementProposerPriority`). Methods on `*ValidatorSet` take the set and return the set they
leave; Go's `error` results are returned values, and only panics end a computation. -/

namespace Dgrid.Types
open Go

/-- Where `ValidatorSet.Proposer` points. It is set to one of the set's own validator objects;
those objects are later mutated in place, and an object replaced by an update or removed
leaves the set while the pointer still refers to it. -/
inductive ProposerRef where
  | member (address : Address)
  | detached (val : Validator)
deriving DecidableEq, Repr

/-- `types.ValidatorSet`. -/
structure ValidatorSet where
  validators : List Validator
  proposer : Option ProposerRef
  totalVotingPower : Int
deriving DecidableEq, Repr

/-- The errors `updateWithChangeSet` returns, with the data its messages print. -/
inductive ChangeSetError where
  /-- `"duplicate entry %v in %v"` -/
  | duplicateEntry (val : Validator) (changes : List Validator)
  /-- `"voting power can't be negative: %v"` -/
  | negativeVotingPower (val : Validator)
  /-- `"to prevent clipping/ overflow, voting power can't be higher than %v: %v "` -/
  | votingPowerTooHigh (val : Validator)
  /-- `"cannot process validators with voting power 0: %v"` -/
  | zeroPowerNotAllowed (deletes : List Validator)
  /-- `"failed to find validator %X to remove"` -/
  | removalNotFound (address : Address)
  /-- `"failed to add/update validator %v, total voting power would exceed the max allowed %v"` -/
  | totalTooHigh (val : Validator)
  /-- `"applying the validator changes would result in empty set"` -/
  | emptySet
deriving DecidableEq, Repr

def ValidatorsByAddress.Less (a b : Validator) : Bool :=
  bytesCompare a.address.bytes b.address.bytes == -1

namespace ValidatorSet

def empty : ValidatorSet := ⟨[], none, 0⟩

/-- `IsNilOrEmpty` on a non-nil set. -/
def IsNilOrEmpty (vals : ValidatorSet) : Bool := vals.validators.isEmpty

def Size (vals : ValidatorSet) : Nat := vals.validators.length

/-- `GetByIndex`: the address and a copy of the validator at `index`, or nothing out of range. -/
def GetByIndex (vals : ValidatorSet) (index : Int) : Option (Address × Validator) :=
  if index < 0 ∨ index ≥ vals.validators.length then none
  else some (vals.validators[index.toNat]!.address, vals.validators[index.toNat]!)

/-- The predicate `HasAddress` and `GetByAddress` hand to `sort.Search`:
`bytes.Compare(address, vals.Validators[i].Address) <= 0`. -/
def addressAtLeast (vals : ValidatorSet) (address : Address) (i : Nat) : Bool :=
  decide (bytesCompare address.bytes vals.validators[i]!.address.bytes ≤ 0)

def HasAddress (vals : ValidatorSet) (address : Address) : Bool :=
  let idx := search vals.validators.length (vals.addressAtLeast address)
  decide (idx < vals.validators.length) && decide (vals.validators[idx]!.address = address)

/-- `GetByAddress`: the index and a copy of the validator with `address`, or `-1` and nothing. -/
def GetByAddress (vals : ValidatorSet) (address : Address) : Int × Option Validator :=
  let idx := search vals.validators.length (vals.addressAtLeast address)
  if idx < vals.validators.length ∧ vals.validators[idx]!.address = address then
    (idx, some vals.validators[idx]!)
  else (-1, none)

/-- The loop of `updateTotalVotingPower`: each power is added with `safeAddClip`, and a running
sum above `MaxTotalVotingPower` panics. -/
def sumVotingPower : Int → List Validator → Result Int
  | sum, [] => .ok sum
  | sum, val :: rest =>
      if safeAddClip sum val.votingPower > MaxTotalVotingPower then
        .panic "Total voting power should be guarded to not exceed MaxTotalVotingPower"
      else sumVotingPower (safeAddClip sum val.votingPower) rest

def updateTotalVotingPower (vals : ValidatorSet) : Result ValidatorSet := do
  let sum ← sumVotingPower 0 vals.validators
  pure { vals with totalVotingPower := sum }

/-- `TotalVotingPower()`: the cached total, recomputed and cached when it is `0`. -/
def TotalVotingPower (vals : ValidatorSet) : Result (Int × ValidatorSet) :=
  if vals.totalVotingPower = 0 then do
    let vals ← vals.updateTotalVotingPower
    pure (vals.totalVotingPower, vals)
  else pure (vals.totalVotingPower, vals)

/-- `computeMaxMinPriorityDiff`: `max - min` over the priorities, in `int64`, made
non-negative. -/
def computeMaxMinPriorityDiff (vals : ValidatorSet) : Result Int :=
  if vals.IsNilOrEmpty then .panic "empty validator set"
  else
    let mm := vals.validators.foldl (fun (mm : Int × Int) v =>
      (if v.proposerPriority > mm.1 then v.proposerPriority else mm.1,
       if v.proposerPriority < mm.2 then v.proposerPriority else mm.2)) (minInt64, maxInt64)
    let diff := wrap64 (mm.1 - mm.2)
    .ok (if diff < 0 then wrap64 (-1 * diff) else diff)

/-- `RescalePriorities(diffMax)`: when the spread of priorities exceeds `diffMax`, divide every
priority by `ceil(diff / diffMax)`, truncating. -/
def RescalePriorities (vals : ValidatorSet) (diffMax : Int) : Result ValidatorSet :=
  if vals.IsNilOrEmpty then .panic "empty validator set"
  else if diffMax ≤ 0 then .ok vals
  else do
    let diff ← computeMaxMinPriorityDiff vals
    let ratio := wrap64 ((wrap64 (wrap64 (diff + diffMax) - 1)).tdiv diffMax)
    if diff > diffMax then
      -- the loop divides by `ratio`, which a wrapped sum could have made zero
      if ratio = 0 then .panic "integer divide by zero"
      else .ok { vals with validators := vals.validators.map fun (val : Validator) =>
        { val with proposerPriority := wrap64 (val.proposerPriority.tdiv ratio) } }
    else .ok vals

/-- `computeAvgProposerPriority`: the exact sum divided by the number of validators with
`big.Int`'s Euclidean division, which must fit an `int64`. -/
def computeAvgProposerPriority (vals : ValidatorSet) : Result Int :=
  if vals.validators.length = 0 then .panic "division by zero"
  else
    let avg := (vals.validators.map (·.proposerPriority)).sum / vals.validators.length
    if InInt64 avg then .ok avg
    else .panic "Cannot represent avg ProposerPriority as an int64"

def shiftByAvgProposerPriority (vals : ValidatorSet) : Result ValidatorSet :=
  if vals.IsNilOrEmpty then .panic "empty validator set"
  else do
    let avg ← vals.computeAvgProposerPriority
    pure { vals with validators := vals.validators.map fun (val : Validator) =>
      { val with proposerPriority := safeSubClip val.proposerPriority avg } }

/-- The loop of `getValWithMostPriority`, `res = res.CompareProposerPriority(val)`; the best
validator so far is kept with its position, which is the object the caller then mutates. -/
def mostPriorityLoop : Option (Nat × Validator) → Nat → List Validator →
    Result (Option (Nat × Validator))
  | res, _, [] => .ok res
  | none, i, val :: rest => mostPriorityLoop (some (i, val)) (i + 1) rest
  | some (r, v), i, val :: rest => do
      let keep ← v.CompareProposerPriority val
      mostPriorityLoop (if keep then some (r, v) else some (i, val)) (i + 1) rest

def getValWithMostPriority (vals : ValidatorSet) : Result (Option (Nat × Validator)) :=
  mostPriorityLoop none 0 vals.validators

/-- `incrementProposerPriority`: one round. Every priority grows by its power, then the
validator with the most priority pays the total power; it is returned. -/
def incrementProposerPriority (vals : ValidatorSet) : Result (ValidatorSet × Validator) := do
  let vals := { vals with validators := vals.validators.map fun (val : Validator) =>
    { val with proposerPriority := safeAddClip val.proposerPriority val.votingPower } }
  let mostest? ← vals.getValWithMostPriority
  match mostest? with
  | none => .panic "invalid memory address or nil pointer dereference"
  | some (i, mostest) => do
      let (total, vals) ← vals.TotalVotingPower
      let mostest := { mostest with
        proposerPriority := safeSubClip mostest.proposerPriority total }
      pure ({ vals with validators := vals.validators.set i mostest }, mostest)

/-- The `times` rounds of `IncrementProposerPriority`, remembering the last proposer. -/
def incrementRounds : Nat → ValidatorSet → Option Validator →
    Result (ValidatorSet × Option Validator)
  | 0, vals, proposer => .ok (vals, proposer)
  | n + 1, vals, _ => do
      let (vals, proposer) ← vals.incrementProposerPriority
      incrementRounds n vals (some proposer)

/-- `IncrementProposerPriority(times)`: rescale the priorities to a window of twice the total
power, centre them, run `times` rounds, and point `Proposer` at the last one chosen. -/
def IncrementProposerPriority (vals : ValidatorSet) (times : Int) : Result ValidatorSet :=
  if vals.IsNilOrEmpty then .panic "empty validator set"
  else if times ≤ 0 then .panic "Cannot call IncrementProposerPriority with non-positive times"
  else do
    let (total, vals) ← vals.TotalVotingPower
    let vals ← vals.RescalePriorities (wrap64 (PriorityWindowSizeFactor * total))
    let vals ← vals.shiftByAvgProposerPriority
    let (vals, proposer) ← incrementRounds times.toNat vals none
    pure { vals with proposer := proposer.map fun p => .member p.address }

/-- The loop of `findProposer`. -/
def findProposerLoop : Option Validator → List Validator → Result (Option Validator)
  | proposer, [] => .ok proposer
  | none, val :: rest => findProposerLoop (some val) rest
  | some p, val :: rest =>
      if val.address ≠ p.address then do
        let keep ← p.CompareProposerPriority val
        findProposerLoop (if keep then some p else some val) rest
      else findProposerLoop (some p) rest

/-- The object a proposer pointer refers to. -/
def ProposerRef.deref (vals : ValidatorSet) : ProposerRef → Option Validator
  | .member a => vals.validators.find? (·.address = a)
  | .detached v => some v

/-- `GetProposer`: the current proposer, found and cached when the pointer is nil. -/
def GetProposer (vals : ValidatorSet) : Result (Option Validator × ValidatorSet) :=
  if vals.validators.length = 0 then .ok (none, vals)
  else do
    let vals ← match vals.proposer with
      | none => do
          let p ← findProposerLoop none vals.validators
          pure { vals with proposer := p.map fun p => .member p.address }
      | some _ => pure vals
    match vals.proposer.bind (ProposerRef.deref vals) with
    | none => .panic "invalid memory address or nil pointer dereference"
    | some p => .ok (some p, vals)

/-- The scan of `processChanges` over the sorted changes: reject a repeated address (the first
address is compared with the nil `prevAddr`), a negative power and a power above
`MaxTotalVotingPower`; split the rest into updates and removals (power `0`). -/
def processChangesLoop (changes : List Validator) :
    Address → List Validator → Except ChangeSetError (List Validator × List Validator)
  | _, [] => .ok ([], [])
  | prevAddr, valUpdate :: rest =>
      if valUpdate.address = prevAddr then .error (.duplicateEntry valUpdate changes)
      else if valUpdate.votingPower < 0 then .error (.negativeVotingPower valUpdate)
      else if valUpdate.votingPower > MaxTotalVotingPower then
        .error (.votingPowerTooHigh valUpdate)
      else do
        let (updates, removals) ← processChangesLoop changes valUpdate.address rest
        if valUpdate.votingPower = 0 then pure (updates, valUpdate :: removals)
        else pure (valUpdate :: updates, removals)

/-- `processChanges`: sort a copy of the changes by address, then scan it. -/
def processChanges (origChanges : List Validator) :
    Except ChangeSetError (List Validator × List Validator) :=
  let changes := sortSort ValidatorsByAddress.Less origChanges
  processChangesLoop changes ⟨[]⟩ changes

/-- The loop of `verifyUpdates`: the running total after each update, checked against
`MaxTotalVotingPower`, and the number of new validators. -/
def verifyUpdatesLoop (vals : ValidatorSet) :
    Int → Nat → List Validator → Except ChangeSetError (Int × Nat)
  | total, numNew, [] => .ok (total, numNew)
  | total, numNew, valUpdate :: rest =>
      let step : Int × Nat := match (vals.GetByAddress valUpdate.address).2 with
        | none => (wrap64 (total + valUpdate.votingPower), numNew + 1)
        | some val =>
            (wrap64 (total + wrap64 (valUpdate.votingPower - val.votingPower)), numNew)
      if step.1 > MaxTotalVotingPower then .error (.totalTooHigh valUpdate)
      else verifyUpdatesLoop vals step.1 step.2 rest

/-- `verifyUpdates`, starting from `vals.TotalVotingPower()`. -/
def verifyUpdates (updates : List Validator) (vals : ValidatorSet) :
    Result (Except ChangeSetError (Int × Nat) × ValidatorSet) := do
  let (total, vals) ← vals.TotalVotingPower
  pure (verifyUpdatesLoop vals total 0 updates, vals)

/-- `computeNewPriorities`: a new validator starts at `-(T + T >> 3)` for the updated total
`T`; an updated one keeps its current priority. -/
def computeNewPriorities (updates : List Validator) (vals : ValidatorSet)
    (updatedTotalVotingPower : Int) : List Validator :=
  updates.map fun valUpdate =>
    match (vals.GetByAddress valUpdate.address).2 with
    | none =>
        let T := updatedTotalVotingPower
        { valUpdate with proposerPriority := wrap64 (-wrap64 (T + (T >>> 3))) }
    | some val => { valUpdate with proposerPriority := val.proposerPriority }

/-- The proposer pointer after the validators with addresses in `leaving` leave the list: a
pointer at one of them keeps referring to that object, now outside the set. -/
def detachProposer (validators : List Validator) (leaving : List Address) :
    Option ProposerRef → Option ProposerRef
  | some (.member a) =>
      match validators.find? (·.address = a) with
      | some v => if a ∈ leaving then some (.detached v) else some (.member a)
      | none => some (.member a)
  | p => p

/-- `applyUpdates`: merge the updates into the address-sorted list, an update replacing the
validator with its address. -/
def applyUpdates (vals : ValidatorSet) (updates : List Validator) : ValidatorSet :=
  { vals with
    validators := KeyedList.mergeByKey Validator.address vals.validators updates
    proposer := detachProposer vals.validators (updates.map (·.address)) vals.proposer }

/-- `verifyRemovals`: every deletion must name a validator of the set. -/
def verifyRemovals (deletes : List Validator) (vals : ValidatorSet) :
    Result (Option ChangeSetError) :=
  match deletes.find? (fun d => (vals.GetByAddress d.address).2.isNone) with
  | some d => .ok (some (.removalNotFound d.address))
  | none =>
      if deletes.length > vals.validators.length then .panic "more deletes than validators"
      else .ok none

/-- `applyRemovals`: the two-pointer walk; it reads past the end of the list, and panics, when
a deletion is not met in order. -/
def applyRemovals (vals : ValidatorSet) (deletes : List Validator) : Result ValidatorSet :=
  match KeyedList.removeByKey Validator.address vals.validators deletes with
  | none => .panic "index out of range"
  | some validators => .ok { vals with
      validators
      proposer := detachProposer vals.validators (deletes.map (·.address)) vals.proposer }

/-- `updateWithChangeSet(changes, allowDeletes)`: the error it returns (if any) and the set it
leaves. -/
def updateWithChangeSet (vals : ValidatorSet) (changes : List Validator) (allowDeletes : Bool) :
    Result (Option ChangeSetError × ValidatorSet) :=
  if changes.length = 0 then .ok (none, vals)
  else
    match processChanges changes with
    | .error err => .ok (some err, vals)
    | .ok (updates, deletes) =>
        if !allowDeletes ∧ deletes.length ≠ 0 then .ok (some (.zeroPowerNotAllowed deletes), vals)
        else do
          let err? ← verifyRemovals deletes vals
          match err? with
          | some err => .ok (some err, vals)
          | none => do
              let (res, vals) ← verifyUpdates updates vals
              match res with
              | .error err => .ok (some err, vals)
              | .ok (updatedTotalVotingPower, numNewValidators) =>
                  if numNewValidators = 0 ∧ vals.validators.length = deletes.length then
                    .ok (some .emptySet, vals)
                  else do
                    let updates := computeNewPriorities updates vals updatedTotalVotingPower
                    let vals := vals.applyUpdates updates
                    let vals ← vals.applyRemovals deletes
                    let vals ← vals.updateTotalVotingPower
                    let (total, vals) ← vals.TotalVotingPower
                    let vals ← vals.RescalePriorities (wrap64 (PriorityWindowSizeFactor * total))
                    let vals ← vals.shiftByAvgProposerPriority
                    .ok (none, vals)

def UpdateWithChangeSet (vals : ValidatorSet) (changes : List Validator) :
    Result (Option ChangeSetError × ValidatorSet) :=
  vals.updateWithChangeSet changes true

end ValidatorSet

/-- `NewValidatorSet(valz)`: an error from the change set is a panic. -/
def NewValidatorSet (valz : List Validator) : Result ValidatorSet := do
  let (err, vals) ← ValidatorSet.empty.updateWithChangeSet valz false
  match err with
  | some _ => .panic "cannot create validator set"
  | none => if valz.length > 0 then vals.IncrementProposerPriority 1 else .ok vals

end Dgrid.Types
