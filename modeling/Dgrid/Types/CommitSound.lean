import Dgrid.Types.CommitSpec
import Dgrid.Types.Amino

/-! What `ValidatorSet.VerifyCommit` and `VerifyFutureCommit` of `core/types/validator_set.go`
guarantee when they accept a commit. Every precommit present is signed by the key of the
validator at its index, and the precommits for the block hold more than two thirds of the set's
power. For a future commit, besides, old validators of distinct addresses that signed the block
hold more than two thirds of the old set's power. The tallies add in `int64`, so this needs the
powers of the sets in use: positive, with a total that fits; the quorum of the old set needs it
of the old set only, the new set being whatever the caller passes. -/

namespace Dgrid.Types
open Go Dgrid.Common

theorem powerSum_le_of_subperm {l L : List Validator} (h : l.Subperm L)
    (hpos : ∀ v ∈ L, 0 < v.votingPower) : powerSum l ≤ powerSum L := by
  obtain ⟨l', hperm, hsub⟩ := h
  calc powerSum l = powerSum l' := by simp only [powerSum, (hperm.map _).sum_eq]
    _ ≤ powerSum L := (hsub.map _).sum_le_sum fun a ha => by
        obtain ⟨v, hv, rfl⟩ := List.mem_map.mp ha
        exact (hpos v hv).le

theorem powerSum_le_of_nodup {l L : List Validator} (hnd : (l.map Validator.address).Nodup)
    (hsub : ∀ v ∈ l, v ∈ L) (hpos : ∀ v ∈ L, 0 < v.votingPower) : powerSum l ≤ powerSum L :=
  powerSum_le_of_subperm (List.subperm_of_subset hnd.of_map hsub) hpos

namespace ValidatorSet

variable (cdc : Codec) (crypto : Crypto)

/-- What a commit accepted by `VerifyCommit` satisfies against the set. -/
structure CommitChecked (vals : ValidatorSet) (leagueID : String) (blockID : BlockID)
    (height : Int) (c : Commit) : Prop where
  validateBasic : c.ValidateBasic = none
  size : c.Precommits.length = vals.Size
  height_eq : c.Height = height
  blockID_eq : c.BlockID = blockID
  signed : ∀ j v, slot c.Precommits j = some v → ∀ val, vals.validators[j]? = some val →
    crypto.verifyBytes val.pubKey (v.SignBytes cdc leagueID) v.Signature = true
  quorum : powerSum vals.validators * 2 / 3 <
    votedPower vals.validators (precommitsFor blockID c.Precommits)

/-- `val` signed a precommit of `votes` for `blockID`, with its address and a signature valid
under its key. -/
def SignedFor (leagueID : String) (blockID : BlockID) (votes : List (Option Vote))
    (val : Validator) : Prop :=
  ∃ pc, some pc ∈ votes ∧ pc.ValidatorAddress = val.address.bytes ∧ pc.BlockID = blockID ∧
    crypto.verifyBytes val.pubKey (pc.SignBytes cdc leagueID) pc.Signature = true

/-- Old validators of distinct addresses that signed the block hold more than two thirds of the
old set's power. -/
def OldQuorum (oldVals : ValidatorSet) (leagueID : String) (blockID : BlockID) (c : Commit) :
    Prop :=
  ∃ signers : List Validator, (signers.map Validator.address).Nodup ∧
    (∀ s ∈ signers, s ∈ oldVals.validators ∧ SignedFor cdc crypto leagueID blockID c.Precommits s) ∧
    powerSum oldVals.validators * 2 / 3 < powerSum signers

/-- What the loop of `VerifyFutureCommit` has tallied: the power `p` is that of `signers`, old
validators of distinct addresses, each looked up and seen, each with a signed precommit for the
block in `votes`. -/
structure OldTally (leagueID : String) (blockID : BlockID) (oldVals : ValidatorSet)
    (votes : List (Option Vote)) (seen : List Int) (p : Int) (signers : List Validator) :
    Prop where
  nodup : (signers.map Validator.address).Nodup
  mem : ∀ s ∈ signers, s ∈ oldVals.validators ∧ (oldVals.GetByAddress s.address).1 ∈ seen ∧
    SignedFor cdc crypto leagueID blockID votes s
  power : p = powerSum signers

variable {cdc crypto} {leagueID : String} {blockID : BlockID}

/-! ### `VerifyCommit` -/

theorem tallyPrecommits_cons {vals : ValidatorSet} {idx : Nat} {t r : Int} {o : Option Vote}
    {votes : List (Option Vote)} (hidx : idx < vals.validators.length)
    (h : vals.tallyPrecommits cdc crypto leagueID blockID idx t (o :: votes) = .ok (.ok r)) :
    (∀ v, o = some v →
      crypto.verifyBytes vals.validators[idx].pubKey (v.SignBytes cdc leagueID) v.Signature) ∧
    ∃ t', vals.tallyPrecommits cdc crypto leagueID blockID (idx + 1) t' votes = .ok (.ok r) := by
  cases o with
  | none =>
      rw [tallyPrecommits] at h
      exact ⟨fun _ hv => (by cases hv), t, h⟩
  | some pc =>
      rw [tallyPrecommits, getByIndex_of_lt hidx] at h
      dsimp only at h
      -- a signature that does not verify ends the loop with an error
      cases hsig : crypto.verifyBytes vals.validators[idx].pubKey
        (Commit.VoteSignBytes cdc leagueID pc) pc.Signature
      · rw [hsig, Bool.not_false, if_pos rfl] at h
        cases h
      · rw [hsig, Bool.not_true, if_neg Bool.false_ne_true] at h
        refine ⟨fun v hv => ?_, _, h⟩
        cases hv
        exact hsig

theorem tallyPrecommits_verified {vals : ValidatorSet} (votes : List (Option Vote)) :
    ∀ (idx : Nat) (t r : Int), idx + votes.length = vals.validators.length →
      vals.tallyPrecommits cdc crypto leagueID blockID idx t votes = .ok (.ok r) →
      ∀ j v, slot votes j = some v → ∀ val, vals.validators[idx + j]? = some val →
        crypto.verifyBytes val.pubKey (v.SignBytes cdc leagueID) v.Signature = true := by
  induction votes with
  | nil =>
      intro _ _ _ _ _ j v hv
      simp at hv
  | cons o votes ih =>
      intro idx t r hlen h j v hv val hval
      simp only [List.length_cons] at hlen
      have hidx : idx < vals.validators.length := by omega
      obtain ⟨hhead, t', hrest⟩ := tallyPrecommits_cons hidx h
      cases j with
      | zero =>
          rw [Nat.add_zero, List.getElem?_eq_getElem hidx, Option.some.injEq] at hval
          subst hval
          exact hhead v hv
      | succ j =>
          exact ih (idx + 1) t' r (by omega) hrest j v hv val (by rw [← hval]; congr 1; omega)

/-- A commit `VerifyCommit` accepts against a set in use has all it checks: one slot per
validator, the height and block asked for, valid signatures, and a tally for the block over two
thirds, which is the power of the precommits for the block, each validator once. -/
theorem verifyCommit_checked {vals vals' : ValidatorSet} (hv : vals.Inv) {height : Int}
    {c : Commit} (h : vals.VerifyCommit cdc crypto leagueID blockID height c = .ok (none, vals')) :
    CommitChecked cdc crypto vals leagueID blockID height c := by
  unfold VerifyCommit at h
  cases hvb : c.ValidateBasic with
  | some err =>
      rw [hvb] at h
      cases h
  | none =>
      rw [hvb] at h
      dsimp only at h
      -- the size, height and block checks end with an error when they fail
      split_ifs at h with hsize hheight hB
      · cases h
      · cases h
      · cases h
      obtain ⟨r, hr, h⟩ := Result.bind_eq_ok.mp h
      rcases r with e | tallied
      · cases h
      obtain ⟨⟨total, vals''⟩, htot, h⟩ := Result.bind_eq_ok.mp h
      rw [totalVotingPower_of_wellFormed hv.toWellFormed] at htot
      cases htot
      by_cases hq : tallied > (wrap64 (powerSum vals.validators * 2)).tdiv 3
      swap
      · rw [if_neg hq] at h
        cases h
      have hlen : c.Precommits.length = vals.validators.length := by
        simpa [Size] using (not_not.mp hsize).symm
      have hsig := tallyPrecommits_verified c.Precommits 0 0 tallied (by omega) hr
      simp only [Nat.zero_add] at hsig
      -- with every signature valid, the loop adds the power of the precommits for the block
      have htally : vals.tallyPrecommits cdc crypto leagueID blockID 0 0 c.Precommits =
          .ok (.ok (0 + votedPower (vals.validators.drop 0) (precommitsFor blockID c.Precommits))) :=
        tallyPrecommits_ok hv c.Precommits 0 0 (by omega) (by simpa using hsig) le_rfl
          (by simpa using hv.sum_le)
      rw [hr] at htally
      simp only [List.drop_zero, zero_add, Result.ok.injEq, Except.ok.injEq] at htally
      have hT := hv.sum_le
      have h0 := powerSum_nonneg fun v hv' => (hv.powers v hv').1
      rw [wrap64_of_power (by omega) (by unfold MaxTotalVotingPower at hT ⊢; omega),
        Int.tdiv_eq_ediv_of_nonneg (by omega)] at hq
      exact ⟨hvb, by simpa [Size] using hlen, (not_not.mp hheight).symm,
        (BlockID.equals_iff.mp (by simpa using hB)).symm, hsig, htally ▸ hq⟩

/-! ### `VerifyFutureCommit` -/

theorem OldTally.init (oldVals : ValidatorSet) (votes : List (Option Vote)) :
    OldTally cdc crypto leagueID blockID oldVals votes [] 0 [] :=
  ⟨List.nodup_nil, fun _ h => absurd h List.not_mem_nil, rfl⟩

theorem OldTally.see {oldVals : ValidatorSet} {votes : List (Option Vote)} {seen : List Int}
    {p : Int} {signers : List Validator}
    (ht : OldTally cdc crypto leagueID blockID oldVals votes seen p signers) (i : Int) :
    OldTally cdc crypto leagueID blockID oldVals votes (i :: seen) p signers :=
  ⟨ht.nodup, fun s hs =>
    ⟨(ht.mem s hs).1, List.mem_cons_of_mem _ (ht.mem s hs).2.1, (ht.mem s hs).2.2⟩, ht.power⟩

/-- A validator found at index `i`, not yet seen, with a valid signature on a precommit of
`votes`: its power is added, without wrapping, when the precommit is for the block, and its
address is a new one since the index of an address is a function of it. -/
theorem OldTally.take {oldVals : ValidatorSet} (hw : oldVals.Inv) {votes : List (Option Vote)}
    {seen : List Int} {p : Int} {signers : List Validator}
    (ht : OldTally cdc crypto leagueID blockID oldVals votes seen p signers) {pc : Vote}
    (hmem : some pc ∈ votes) {i : Int} {val : Validator}
    (hget : oldVals.GetByAddress ⟨pc.ValidatorAddress⟩ = (i, some val)) (hseen : i ∉ seen)
    (hsig : crypto.verifyBytes val.pubKey (pc.SignBytes cdc leagueID) pc.Signature = true) :
    OldTally cdc crypto leagueID blockID oldVals votes (i :: seen)
      (if blockID.Equals pc.BlockID then wrap64 (p + val.votingPower) else p)
      (if blockID.Equals pc.BlockID then val :: signers else signers) := by
  obtain ⟨hval, haddr⟩ := getByAddress_snd_eq_some (congrArg Prod.snd hget)
  split_ifs with hB
  · have hnew : val.address ∉ signers.map Validator.address := fun hin => by
      obtain ⟨s, hs, hsa⟩ := List.mem_map.mp hin
      have hs' := (ht.mem s hs).2.1
      rw [hsa, haddr, hget] at hs'
      exact hseen hs'
    have hpos : ∀ v ∈ oldVals.validators, 0 < v.votingPower := fun v hv => (hw.powers v hv).1
    have hle := powerSum_le_of_nodup ht.nodup (fun s hs => (ht.mem s hs).1) hpos
    have hT := hw.sum_le
    have hp := (hw.powers val hval).2
    have h0 := powerSum_nonneg fun v hv => hpos v (ht.mem v hv).1
    have hpw := ht.power
    refine ⟨List.nodup_cons.mpr ⟨hnew, ht.nodup⟩, ?_, ?_⟩
    · rintro s (_ | ⟨_, hs⟩)
      · refine ⟨hval, by rw [haddr, hget]; exact List.mem_cons_self, pc, hmem, ?_,
          (BlockID.equals_iff.mp hB).symm, hsig⟩
        rw [haddr]
      · exact (ht.see i).mem s hs
    · rw [powerSum_cons, ← ht.power, wrap64_of_power (by have := (hw.powers val hval).1; omega)
        (by unfold MaxTotalVotingPower at hT hp ⊢; omega)]
      omega
  · exact ht.see i

theorem tallyOldPrecommits_sound {oldVals : ValidatorSet} (hw : oldVals.Inv)
    {all : List (Option Vote)} {height round : Int} (votes : List (Option Vote)) :
    ∀ (idx : Nat) (p r : Int) (seen : List Int) (signers : List Validator),
      (∀ o ∈ votes, o ∈ all) → OldTally cdc crypto leagueID blockID oldVals all seen p signers →
      tallyOldPrecommits cdc crypto oldVals leagueID blockID height round idx p seen votes =
        .ok r →
      ∃ seen' signers', OldTally cdc crypto leagueID blockID oldVals all seen' r signers' := by
  induction votes with
  | nil =>
      intro _ p r seen signers _ ht h
      cases h
      exact ⟨seen, signers, ht⟩
  | cons o votes ih =>
      intro idx p r seen signers hsub ht h
      have hsub' : ∀ o' ∈ votes, o' ∈ all := fun o' ho' => hsub o' (List.mem_cons_of_mem _ ho')
      cases o with
      | none => exact ih (idx + 1) p r seen signers hsub' ht h
      | some pc =>
          rw [tallyOldPrecommits] at h
          -- a precommit of another height, round or type ends the loop with an error
          by_cases hh : pc.Height ≠ height
          · rw [if_pos hh] at h
            cases h
          by_cases hr : pc.Round ≠ round
          · rw [if_neg hh, if_pos hr] at h
            cases h
          by_cases htype : pc.Type_ ≠ PrecommitType
          · rw [if_neg hh, if_neg hr, if_pos htype] at h
            cases h
          rw [if_neg hh, if_neg hr, if_neg htype] at h
          rcases hget : oldVals.GetByAddress ⟨pc.ValidatorAddress⟩ with ⟨i, _ | val⟩
          · rw [hget] at h
            exact ih (idx + 1) p r seen signers hsub' ht h
          rw [hget] at h
          dsimp only at h
          by_cases hseen : i ∈ seen
          · rw [if_pos hseen] at h
            exact ih (idx + 1) p r seen signers hsub' ht h
          rw [if_neg hseen] at h
          cases hsig : crypto.verifyBytes val.pubKey (Commit.VoteSignBytes cdc leagueID pc)
            pc.Signature
          · rw [hsig, Bool.not_false, if_pos rfl] at h
            cases h
          · rw [hsig, Bool.not_true, if_neg Bool.false_ne_true] at h
            exact ih (idx + 1) _ r (i :: seen) _ hsub'
              (ht.take hw (hsub _ List.mem_cons_self) hget hseen hsig) h

/-- A future commit `VerifyFutureCommit` accepts from a set in use has passed `VerifyCommit` on
the new set, and old validators of distinct addresses that signed the block hold more than two
thirds of the old set's power. -/
theorem verifyFutureCommit_quorum {vals newSet vals' newSet' : ValidatorSet} (hv : vals.Inv)
    {height : Int} {c : Commit}
    (h : vals.VerifyFutureCommit cdc crypto newSet leagueID blockID height c =
      .ok (none, vals', newSet')) :
    newSet.VerifyCommit cdc crypto leagueID blockID height c = .ok (none, newSet') ∧
      OldQuorum cdc crypto vals leagueID blockID c := by
  obtain ⟨⟨err, ns⟩, hvc, h⟩ := Result.bind_eq_ok.mp h
  rcases err with _ | err
  · dsimp only at h
    rcases ht : tallyOldPrecommits cdc crypto vals leagueID blockID height c.Round 0 0 []
      c.Precommits with e | p
    · rw [ht] at h
      cases h
    rw [ht] at h
    dsimp only at h
    obtain ⟨⟨total, vals''⟩, htot, h⟩ := Result.bind_eq_ok.mp h
    rw [totalVotingPower_of_wellFormed hv.toWellFormed] at htot
    cases htot
    split_ifs at h with hq
    · cases h
    cases h
    obtain ⟨seen, signers, hold⟩ := tallyOldPrecommits_sound hv c.Precommits 0 0 p [] []
      (fun _ h => h) (OldTally.init vals c.Precommits) ht
    have hT := hv.sum_le
    have h0 := powerSum_nonneg fun v hv' => (hv.powers v hv').1
    rw [wrap64_of_power (by omega) (by unfold MaxTotalVotingPower at hT ⊢; omega),
      Int.tdiv_eq_ediv_of_nonneg (by omega)] at hq
    refine ⟨hvc, signers, hold.nodup, fun s hs => ⟨(hold.mem s hs).1, (hold.mem s hs).2.2⟩, ?_⟩
    rw [← hold.power]
    exact lt_of_not_ge hq
  · cases h

/-- For the validator sets in use, `VerifyCommit` accepts only a commit with everything it
checks, whose precommits for the block hold more than two thirds of the power, each validator
once at its index. `VerifyFutureCommit` from a set in use, with any new set, accepts only when
`VerifyCommit` accepted on the new set, and old validators of distinct addresses that signed the
block hold more than two thirds of the old set's power; for a new set in use the first part
then holds of the new set. -/
theorem verifyCommit_counts_signed_power (cdc : Codec) (crypto : Crypto) :
    (∀ (vals vals' : ValidatorSet) leagueID blockID height c, vals.Inv →
      vals.VerifyCommit cdc crypto leagueID blockID height c = .ok (none, vals') →
      CommitChecked cdc crypto vals leagueID blockID height c) ∧
    (∀ (vals newSet vals' newSet' : ValidatorSet) leagueID blockID height c, vals.Inv →
      vals.VerifyFutureCommit cdc crypto newSet leagueID blockID height c =
        .ok (none, vals', newSet') →
      OldQuorum cdc crypto vals leagueID blockID c ∧
        newSet.VerifyCommit cdc crypto leagueID blockID height c = .ok (none, newSet') ∧
        (newSet.Inv → CommitChecked cdc crypto newSet leagueID blockID height c)) := by
  refine ⟨fun _ _ _ _ _ _ hv h => verifyCommit_checked hv h, ?_⟩
  intro _ _ _ _ _ _ _ _ hv h
  obtain ⟨hvc, hq⟩ := verifyFutureCommit_quorum hv h
  exact ⟨hq, hvc, fun hnew => verifyCommit_checked hnew hvc⟩

/-- A commit signed under the amino codec by the two validators of a set `NewValidatorSet`
builds, checked against that set, and as a future commit of a new set of three. -/
theorem verifyCommit_counts_signed_power_signed :
    let B : BlockID := ⟨List.replicate 32 7, ⟨1, List.replicate 32 9⟩⟩
    let vals : ValidatorSet :=
      ⟨[⟨⟨[1]⟩, [1], 10, 10⟩, ⟨⟨[2]⟩, [2], 20, -10⟩], some (.member ⟨[2]⟩), 30⟩
    let newSet : ValidatorSet := ⟨[⟨⟨[1]⟩, [1], 10, 10⟩, ⟨⟨[2]⟩, [2], 20, -15⟩,
      ⟨⟨[3]⟩, [3], 5, 5⟩], some (.member ⟨[2]⟩), 35⟩
    let u₀ : Vote := ⟨PrecommitType, 1, 0, B, 0, [1], 0, []⟩
    let u₁ : Vote := ⟨PrecommitType, 1, 0, B, 0, [2], 1, []⟩
    let c : Commit := ⟨B, [some { u₀ with Signature := [1] ++ u₀.SignBytes aminoCodec "" },
      some { u₁ with Signature := [2] ++ u₁.SignBytes aminoCodec "" }]⟩
    let c' : Commit := ⟨B, c.Precommits ++ [none]⟩
    NewValidatorSet [⟨⟨[1]⟩, [1], 10, 0⟩, ⟨⟨[2]⟩, [2], 20, 0⟩] = .ok vals ∧
      NewValidatorSet [⟨⟨[1]⟩, [1], 10, 0⟩, ⟨⟨[2]⟩, [2], 20, 0⟩, ⟨⟨[3]⟩, [3], 5, 0⟩] = .ok newSet ∧
      vals.VerifyCommit aminoCodec echoCrypto "" B 1 c = .ok (none, vals) ∧
      CommitChecked aminoCodec echoCrypto vals "" B 1 c ∧
      vals.VerifyFutureCommit aminoCodec echoCrypto newSet "" B 1 c' = .ok (none, vals, newSet) ∧
      OldQuorum aminoCodec echoCrypto vals "" B c' ∧
      newSet.VerifyCommit aminoCodec echoCrypto "" B 1 c' = .ok (none, newSet) ∧
      CommitChecked aminoCodec echoCrypto newSet "" B 1 c' := by
  intro B vals newSet u₀ u₁ c c'
  -- the validators are given in address order, so the sort inside leaves them as they are
  have hvals : NewValidatorSet [⟨⟨[1]⟩, [1], 10, 0⟩, ⟨⟨[2]⟩, [2], 20, 0⟩] = .ok vals := by
    simp only [NewValidatorSet, ValidatorSet.updateWithChangeSet]
    rw [ValidatorSet.processChanges_of_pairwise]
    · decide +kernel
    · decide
  have hnew : NewValidatorSet [⟨⟨[1]⟩, [1], 10, 0⟩, ⟨⟨[2]⟩, [2], 20, 0⟩, ⟨⟨[3]⟩, [3], 5, 0⟩] =
      .ok newSet := by
    simp only [NewValidatorSet, ValidatorSet.updateWithChangeSet]
    rw [ValidatorSet.processChanges_of_pairwise]
    · decide +kernel
    · decide
  have hv : vals.VerifyCommit aminoCodec echoCrypto "" B 1 c = .ok (none, vals) := by
    decide +kernel
  have hf : vals.VerifyFutureCommit aminoCodec echoCrypto newSet "" B 1 c' =
      .ok (none, vals, newSet) := by
    decide +kernel
  have hinv := NewValidatorSet_inv (by simp) hvals
  obtain ⟨hcommit, -⟩ := verifyCommit_counts_signed_power aminoCodec echoCrypto
  obtain ⟨-, hfuture⟩ := verifyCommit_counts_signed_power aminoCodec echoCrypto
  obtain ⟨hq, hvc, hchecked⟩ := hfuture vals newSet vals newSet "" B 1 c' hinv hf
  exact ⟨hvals, hnew, hv, hcommit vals vals "" B 1 c hinv hv, hf, hq, hvc,
    hchecked (NewValidatorSet_inv (by simp) hnew)⟩

/-- A set with negative powers, which no set in use has: `-2^63` and `-1`, then `2^62` twice.
`updateTotalVotingPower` clips the running sum at `-2^63`, so the total it caches is `0`. The
precommits of the first two validators, for the block, tally `-2^63 - 1`, which wraps in
`int64` to `2^63 - 1`, above two thirds of `0`. So `VerifyCommit` accepts, though the power of
the precommits for the block is negative and the set's power is `-1`. -/
theorem verifyCommit_accepts_wrapped_tally :
    let B : BlockID := ⟨[7], ⟨1, [9]⟩⟩
    let vals : ValidatorSet := ⟨[⟨⟨[0]⟩, [0], -9223372036854775808, 0⟩, ⟨⟨[1]⟩, [1], -1, 0⟩,
      ⟨⟨[2]⟩, [2], 4611686018427387904, 0⟩, ⟨⟨[3]⟩, [3], 4611686018427387904, 0⟩], none, 0⟩
    let u₀ : Vote := ⟨PrecommitType, 1, 0, B, 0, [0], 0, []⟩
    let u₁ : Vote := ⟨PrecommitType, 1, 0, B, 0, [1], 1, []⟩
    let c : Commit := ⟨B, [some { u₀ with Signature := [0] ++ u₀.SignBytes aminoCodec "" },
      some { u₁ with Signature := [1] ++ u₁.SignBytes aminoCodec "" }, none, none]⟩
    vals.VerifyCommit aminoCodec echoCrypto "" B 1 c = .ok (none, vals) ∧
      vals.TotalVotingPower = .ok (0, vals) ∧
      votedPower vals.validators (precommitsFor B c.Precommits) = -9223372036854775809 ∧
      powerSum vals.validators = -1 :=
  ⟨by decide +kernel, by rfl, by decide, by decide⟩

end ValidatorSet

end Dgrid.Types
