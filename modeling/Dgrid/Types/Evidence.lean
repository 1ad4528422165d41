import Dgrid.Types.CommitSpec

/-! `DuplicateVoteEvidence` of `core/types/evidence.go`, and the evidence `AddVote` hands back in
`ErrVoteConflictingVotes`. The evidence pairs the canonical vote stored for the validator with
the new vote. The stored vote was checked when it was stored, under the key of the validator at
its index, and `getVote` found it for another block key than the new vote's; the new vote passed
the same checks. So the evidence verifies, whatever the calls that led to the set. -/

namespace Dgrid.Types
open Go Dgrid.Common

/-- `DuplicateVoteEvidence`. -/
structure DuplicateVoteEvidence where
  PubKey : PubKey
  VoteA : Vote
  VoteB : Vote

/-- The errors of `DuplicateVoteEvidence.Verify`, with what their messages print. -/
inductive EvidenceError where
  /-- `"DuplicateVoteEvidence Error: H/R/S does not match. Got %v and %v"` -/
  | hrsMismatch (voteA voteB : Vote)
  /-- `"DuplicateVoteEvidence Error: Validator addresses do not match. Got %X and %X"` -/
  | addressMismatch (addrA addrB : Bytes)
  /-- `"DuplicateVoteEvidence Error: Validator indices do not match. Got %d and %d"` -/
  | indexMismatch (indexA indexB : Int)
  /-- `"DuplicateVoteEvidence Error: BlockIDs are the same (%v) - not a real duplicate vote"` -/
  | sameBlockID (blockID : BlockID)
  /-- `"DuplicateVoteEvidence FAILED SANITY CHECK - address (%X) doesn't match pubkey (%v - %X)"` -/
  | pubKeyMismatch (addr : Bytes) (pubKey : PubKey) (pubKeyAddr : Bytes)
  /-- `"DuplicateVoteEvidence Error verifying VoteA: %v"`, with `ErrVoteInvalidSignature` -/
  | invalidSignatureA
  /-- `"DuplicateVoteEvidence Error verifying VoteB: %v"`, with `ErrVoteInvalidSignature` -/
  | invalidSignatureB
deriving Repr

namespace DuplicateVoteEvidence

variable (cdc : Codec) (crypto : Crypto)

/-- `dve.Verify(leagueID, pubKey)`: the two votes are of one validator, for one height, round
and type, for different blocks, and both are signed by `pubKey`, whose address is theirs. -/
def Verify (dve : DuplicateVoteEvidence) (leagueID : String) (pubKey : Types.PubKey) :
    Option EvidenceError :=
  if dve.VoteA.Height ≠ dve.VoteB.Height ∨ dve.VoteA.Round ≠ dve.VoteB.Round ∨
      dve.VoteA.Type_ ≠ dve.VoteB.Type_ then
    some (.hrsMismatch dve.VoteA dve.VoteB)
  else if dve.VoteA.ValidatorAddress ≠ dve.VoteB.ValidatorAddress then
    some (.addressMismatch dve.VoteA.ValidatorAddress dve.VoteB.ValidatorAddress)
  else if dve.VoteA.ValidatorIndex ≠ dve.VoteB.ValidatorIndex then
    some (.indexMismatch dve.VoteA.ValidatorIndex dve.VoteB.ValidatorIndex)
  else if dve.VoteA.BlockID.Equals dve.VoteB.BlockID then some (.sameBlockID dve.VoteA.BlockID)
  else if crypto.address pubKey ≠ dve.VoteA.ValidatorAddress then
    some (.pubKeyMismatch dve.VoteA.ValidatorAddress pubKey (crypto.address pubKey))
  else if !crypto.verifyBytes pubKey (dve.VoteA.SignBytes cdc leagueID) dve.VoteA.Signature then
    some .invalidSignatureA
  else if !crypto.verifyBytes pubKey (dve.VoteB.SignBytes cdc leagueID) dve.VoteB.Signature then
    some .invalidSignatureB
  else none

variable {cdc crypto}

theorem verify_eq_none_of {dve : DuplicateVoteEvidence} {leagueID : String}
    {pubKey : Types.PubKey}
    (hh : dve.VoteA.Height = dve.VoteB.Height) (hr : dve.VoteA.Round = dve.VoteB.Round)
    (ht : dve.VoteA.Type_ = dve.VoteB.Type_)
    (hidx : dve.VoteA.ValidatorIndex = dve.VoteB.ValidatorIndex)
    (hne : dve.VoteA.BlockID ≠ dve.VoteB.BlockID)
    (hA : dve.VoteA.Verify cdc crypto leagueID pubKey = none)
    (hB : dve.VoteB.Verify cdc crypto leagueID pubKey = none) :
    dve.Verify cdc crypto leagueID pubKey = none := by
  obtain ⟨haddrA, hsigA⟩ := Vote.verify_eq_none hA
  obtain ⟨haddrB, hsigB⟩ := Vote.verify_eq_none hB
  have hequals : dve.VoteA.BlockID.Equals dve.VoteB.BlockID = false := by
    rw [Bool.eq_false_iff, ne_eq, BlockID.equals_iff]
    exact hne
  rw [Verify, if_neg (by simp [hh, hr, ht]), if_neg (by rw [← haddrA, ← haddrB]; exact not_not.mpr rfl),
    if_neg (not_not.mpr hidx), hequals, if_neg Bool.false_ne_true, if_neg (not_not.mpr haddrA),
    hsigA, hsigB]
  rfl

end DuplicateVoteEvidence

namespace VoteSet

variable {cdc : Codec} {crypto : Crypto} {P : Vote → Prop} {vs : VoteSet} {vote : Vote} {i : Nat}

theorem getVote_none_key (hi : Inv cdc crypto P vs) (hlt : i < vs.valSet.validators.length)
    {K : Bytes} (h : vs.getVote cdc i K = .ok none) {e : Vote} (he : slot vs.votes i = some e) :
    e.BlockID.Key cdc ≠ K := by
  have hlt' : i < vs.votes.length := hi.length ▸ hlt
  rw [getVote, index_of_lt hlt', Result.ok_bind, ← slot_eq_getElem hlt', he] at h
  dsimp only at h
  intro hK
  rw [if_pos hK, Result.pure_eq, Result.ok.injEq] at h
  cases h

theorem recordVote_conflicting {vs₁ : VoteSet} {K : Bytes} {p : Int} {c : Option Vote}
    (hidx : vote.ValidatorIndex = i) (hlt : i < vs.votes.length)
    (h : vs.recordVote cdc vote K p = .ok (c, vs₁)) : c = slot vs.votes i := by
  rw [recordVote, hidx, index_of_lt hlt, Result.ok_bind, ← slot_eq_getElem hlt] at h
  cases hs : slot vs.votes i with
  | none =>
      rw [hs] at h
      obtain ⟨_, -, h⟩ := Result.bind_eq_ok.mp h
      obtain ⟨⟨_, _⟩, -, h⟩ := Result.bind_eq_ok.mp h
      dsimp only at h
      rw [Result.pure_eq, Result.ok.injEq, Prod.mk.injEq] at h
      exact h.1.symm
  | some e =>
      rw [hs] at h
      dsimp only at h
      split_ifs at h
      · obtain ⟨_, -, h⟩ := Result.bind_eq_ok.mp h
        obtain ⟨⟨_, _⟩, -, h⟩ := Result.bind_eq_ok.mp h
        dsimp only at h
        rw [Result.pure_eq, Result.ok.injEq, Prod.mk.injEq] at h
        exact h.1.symm
      · rw [Result.pure_eq, Result.ok.injEq, Prod.mk.injEq] at h
        exact h.1.symm

theorem addVerifiedVote_conflicting {vs' : VoteSet} {K : Bytes} {p : Int} {added : Bool}
    {c : Option Vote} (h : vs.addVerifiedVote cdc vote K p = .ok ((added, c), vs')) :
    ∃ vs₁, vs.recordVote cdc vote K p = .ok (c, vs₁) := by
  rw [addVerifiedVote] at h
  obtain ⟨⟨c', vs₁⟩, hrec, h⟩ := Result.bind_eq_ok.mp h
  refine ⟨vs₁, ?_⟩
  rw [hrec]
  dsimp only at h
  -- every branch hands back the conflicting vote of `recordVote`
  split at h
  · split_ifs at h
    · cases h
      rfl
    · obtain ⟨_, -, h⟩ := Result.bind_eq_ok.mp h
      cases h
      rfl
  · split_ifs at h
    · cases h
      rfl
    · obtain ⟨_, -, h⟩ := Result.bind_eq_ok.mp h
      cases h
      rfl

theorem addVote_conflicting (hi : Inv cdc crypto P vs) {vs' : VoteSet} {added : Bool}
    {pubKey : PubKey} {voteA voteB : Vote}
    (h : vs.addVote cdc crypto (some vote) =
      .ok ((added, some (.conflictingVotes pubKey voteA voteB)), vs')) :
    voteB = vote ∧ ∃ i : Nat, vote.ValidatorIndex = i ∧ ∃ hlt : i < vs.valSet.validators.length,
      pubKey = vs.valSet.validators[i].pubKey ∧ slot vs.votes i = some voteA ∧
      voteA.BlockID.Key cdc ≠ vote.BlockID.Key cdc ∧ vote.Height = vs.height ∧
      vote.Round = vs.round ∧ vote.Type_ = vs.type_ ∧
      vote.Verify cdc crypto vs.leagueID vs.valSet.validators[i].pubKey = none := by
  unfold addVote at h
  dsimp only at h
  split_ifs at h with hneg hemp hstep
  · cases h
  · cases h
  · cases h
  split at h
  · cases h
  rename_i addr val hget
  obtain ⟨i, hidx, hlt, rfl, rfl⟩ := ValidatorSet.getByIndex_eq_some hget
  split_ifs at h with haddr
  · cases h
  obtain ⟨existing?, hgv, h⟩ := Result.bind_eq_ok.mp h
  split at h
  · split_ifs at h <;> cases h
  split at h
  · cases h
  rename_i hverify
  obtain ⟨⟨⟨added', c⟩, vs₂⟩, hadd, h⟩ := Result.bind_eq_ok.mp h
  dsimp only at h
  split at h
  · -- the conflicting vote is the canonical one, for another block key
    rw [Result.ok.injEq] at h
    simp only [Prod.mk.injEq, Option.some.injEq, VoteError.conflictingVotes.injEq] at h
    obtain ⟨⟨-, rfl, rfl, rfl⟩, -⟩ := h
    obtain ⟨vs₁, hrec⟩ := addVerifiedVote_conflicting hadd
    have hc' := recordVote_conflicting hidx (hi.length ▸ hlt) hrec
    simp only [not_or, not_not] at hstep
    exact ⟨rfl, i, hidx, hlt, rfl, hc'.symm,
      getVote_none_key hi hlt (hidx ▸ hgv) hc'.symm, hstep.1, hstep.2.1, hstep.2.2, hverify⟩
  · split_ifs at h
    cases h

variable (cdc crypto) in
/-- The evidence of `ErrVoteConflictingVotes`: `NewConflictingVoteError(val, voteA, voteB)`. -/
def conflictingEvidence : VoteError → Option DuplicateVoteEvidence
  | .conflictingVotes pubKey voteA voteB => some ⟨pubKey, voteA, voteB⟩
  | _ => none

/-- On every vote set that any calls reached, conflicting votes come with evidence that verifies
under the key it names: the canonical vote found for another block, and the new vote. -/
theorem conflictingVotes_evidence_verifies {vs vs' : VoteSet}
    (h : Reachable cdc crypto (fun _ => True) vs) {added : Bool} {err : VoteError}
    (hadd : vs.AddVote cdc crypto (some vote) = .ok ((added, some err), vs'))
    {ev : DuplicateVoteEvidence} (hev : conflictingEvidence err = some ev) :
    ev.VoteB = vote ∧ ev.Verify cdc crypto vs.leagueID ev.PubKey = none := by
  have hi := h.inv
  cases err with
  | conflictingVotes pubKey voteA voteB =>
      rw [conflictingEvidence, Option.some.injEq] at hev
      subst hev
      obtain ⟨rfl, i, hidx, hlt, rfl, ha, hkey, hh, hr, ht, hver⟩ := addVote_conflicting hi hadd
      -- the canonical vote was checked against the same validator when it was stored
      have hc := hi.checked i voteA ha
      refine ⟨rfl, DuplicateVoteEvidence.verify_eq_none_of (hc.height.trans hh.symm)
        (hc.round.trans hr.symm) (hc.type_.trans ht.symm) (hc.index.trans hidx.symm)
        (fun heq => hkey (by rw [heq])) hc.verify hver⟩
  | _ => cases hev

theorem conflictingVotes_evidence_verifies_prevote :
    let A : BlockID := ⟨[7], ⟨1, []⟩⟩
    let B : BlockID := ⟨[8], ⟨1, []⟩⟩
    let vals : ValidatorSet := ⟨[⟨⟨[1]⟩, [1], 10, 0⟩], some (.member ⟨[1]⟩), 10⟩
    let u₀ : Vote := ⟨PrevoteType, 1, 0, A, 0, [1], 0, []⟩
    let u₁ : Vote := ⟨PrevoteType, 1, 0, B, 0, [1], 0, []⟩
    let v₀ : Vote := { u₀ with Signature := [1] ++ u₀.SignBytes aminoCodec "" }
    let v₁ : Vote := { u₁ with Signature := [1] ++ u₁.SignBytes aminoCodec "" }
    let vs₀ : VoteSet := ⟨"", 1, 0, PrevoteType, vals, NewBitArray 1, [none], 0, none,
      fun _ => none, fun _ => none⟩
    ∃ vs vs', Reachable aminoCodec echoCrypto (fun _ => True) vs ∧
      vs₀.AddVote aminoCodec echoCrypto (some v₀) = .ok ((true, none), vs) ∧
      vs.AddVote aminoCodec echoCrypto (some v₁) =
        .ok ((false, some (.conflictingVotes [1] v₀ v₁)), vs') ∧
      v₁ = v₁ ∧ DuplicateVoteEvidence.Verify aminoCodec echoCrypto ⟨[1], v₀, v₁⟩ vs.leagueID [1] =
        none := by
  intro A B vals u₀ u₁ v₀ v₁ vs₀
  -- the first prevote is added, the second, for another block, conflicts with it
  have hrun : (vs₀.AddVote aminoCodec echoCrypto (some v₀) >>= fun p =>
      p.2.AddVote aminoCodec echoCrypto (some v₁) >>= fun q => pure (p.1, q.1)) =
        .ok ((true, none), (false, some (.conflictingVotes [1] v₀ v₁))) := by
    decide +kernel
  obtain ⟨⟨r₀, vs⟩, h₀, hrun⟩ := Result.bind_eq_ok.mp hrun
  obtain ⟨⟨r₁, vs'⟩, h₁, hrun⟩ := Result.bind_eq_ok.mp hrun
  simp only [Result.pure_eq, Result.ok.injEq, Prod.mk.injEq] at hrun
  obtain ⟨rfl, rfl⟩ := hrun
  have hr : Reachable aminoCodec echoCrypto (fun _ => True) vs :=
    .step (.init ⟨.init ⟨[⟨⟨[1]⟩, [1], 10, 0⟩], by simp, by decide +kernel⟩, rfl⟩)
      (.addVote _ _ (fun _ _ => trivial) h₀)
  exact ⟨vs, vs', hr, h₀, h₁, conflictingVotes_evidence_verifies hr h₁ rfl⟩

end VoteSet

end Dgrid.Types
