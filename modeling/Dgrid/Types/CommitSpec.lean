import Dgrid.Types.VoteSetInvariant
import Dgrid.Types.Amino

/-! What `Commit.ValidateBasic` and `ValidatorSet.VerifyCommit` accept, and that they accept the
commit a precommit vote set makes once a block has the quorum. -/

namespace Dgrid.Types
open Go Dgrid.Common

theorem firstHeightRound_eq {votes : List (Option Vote)} {height round : Int}
    (hex : ∃ j v, slot votes j = some v)
    (hall : ∀ j v, slot votes j = some v → v.Height = height ∧ v.Round = round) :
    firstHeightRound votes = (height, round) := by
  induction votes with
  | nil =>
      obtain ⟨j, v, hv⟩ := hex
      simp at hv
  | cons o votes ih =>
      cases o with
      | some v =>
          obtain ⟨hh, hr⟩ := hall 0 v rfl
          rw [firstHeightRound, hh, hr]
      | none =>
          rw [firstHeightRound]
          refine ih ?_ fun j v hv => hall (j + 1) v hv
          obtain ⟨j, v, hv⟩ := hex
          cases j with
          | zero => simp at hv
          | succ j => exact ⟨j, v, hv⟩

namespace Commit

theorem validatePrecommits_eq_none {height round : Int} {votes : List (Option Vote)}
    (hall : ∀ j v, slot votes j = some v →
      v.Type_ = PrecommitType ∧ v.Height = height ∧ v.Round = round) :
    validatePrecommits height round votes = none := by
  induction votes with
  | nil => rfl
  | cons o votes ih =>
      have ih' := ih fun j v hv => hall (j + 1) v hv
      cases o with
      | none => exact ih'
      | some v =>
          obtain ⟨ht, hh, hr⟩ := hall 0 v rfl
          simp [validatePrecommits, ht, hh, hr, ih']

theorem validateBasic_eq_none {commit : Commit} (hnz : commit.BlockID.IsZero = false)
    (hex : ∃ j v, slot commit.Precommits j = some v) {height round : Int}
    (hall : ∀ j v, slot commit.Precommits j = some v →
      v.Type_ = PrecommitType ∧ v.Height = height ∧ v.Round = round) :
    commit.ValidateBasic = none := by
  have hfirst : firstHeightRound commit.Precommits = (height, round) :=
    firstHeightRound_eq hex fun j v hv => (hall j v hv).2
  have hne : commit.Precommits.length ≠ 0 := by
    obtain ⟨j, v, hv⟩ := hex
    intro h0
    rw [List.length_eq_zero_iff.mp h0] at hv
    simp at hv
  rw [ValidateBasic, if_neg (by simp [hnz]), if_neg hne, Height, Round, hfirst]
  exact validatePrecommits_eq_none hall

end Commit

namespace ValidatorSet

variable {cdc : Codec} {crypto : Crypto}

/-- The precommits of `blockID`, the others read as absent. -/
def precommitsFor (blockID : BlockID) (votes : List (Option Vote)) : List (Option Vote) :=
  votes.map (Option.filter fun v => blockID.Equals v.BlockID)

theorem tallyPrecommits_ok {vals : ValidatorSet} (hv : vals.Inv) {leagueID : String}
    {blockID : BlockID} (votes : List (Option Vote)) :
    ∀ (idx : Nat) (t : Int), idx + votes.length = vals.validators.length →
      (∀ j v, slot votes j = some v → ∀ val, vals.validators[idx + j]? = some val →
        crypto.verifyBytes val.pubKey (v.SignBytes cdc leagueID) v.Signature = true) →
      0 ≤ t → t + powerSum (vals.validators.drop idx) ≤ MaxTotalVotingPower →
      vals.tallyPrecommits cdc crypto leagueID blockID idx t votes =
        .ok (.ok (t + votedPower (vals.validators.drop idx) (precommitsFor blockID votes))) := by
  induction votes with
  | nil =>
      intro idx t _ _ _ _
      simp [tallyPrecommits, precommitsFor]
  | cons o votes ih =>
      intro idx t hlen hsig h0 hle
      simp only [List.length_cons] at hlen
      have hidx : idx < vals.validators.length := by omega
      have hdrop := List.drop_eq_getElem_cons hidx
      have hpos := (hv.powers _ (List.getElem_mem hidx)).1
      have hrest : 0 ≤ powerSum (vals.validators.drop (idx + 1)) := powerSum_nonneg fun v hv' =>
        (hv.powers v (List.mem_of_mem_drop hv')).1
      rw [hdrop, powerSum_cons] at hle
      have hsig' : ∀ j v, slot votes j = some v → ∀ val,
          vals.validators[idx + 1 + j]? = some val →
          crypto.verifyBytes val.pubKey (v.SignBytes cdc leagueID) v.Signature = true :=
        fun j v hv val hval => hsig (j + 1) v hv val (by rw [← hval]; congr 1; omega)
      cases o with
      | none =>
          rw [tallyPrecommits, ih (idx + 1) t (by omega) hsig' h0 (by omega)]
          simp only [precommitsFor, List.map_cons, Option.filter_none, hdrop]
          rfl
      | some pc =>
          have hverify := hsig 0 pc rfl _ (List.getElem?_eq_getElem hidx)
          rw [tallyPrecommits, ValidatorSet.getByIndex_of_lt hidx]
          dsimp only
          rw [Commit.VoteSignBytes, hverify, Bool.not_true, if_neg Bool.false_ne_true]
          -- a precommit for the block adds its validator's power; the total still fits
          by_cases hB : blockID.Equals pc.BlockID = true
          · rw [if_pos hB, wrap64_of_power (by omega) (by unfold MaxTotalVotingPower at hle ⊢; omega),
              ih (idx + 1) _ (by omega) hsig' (by omega) (by omega)]
            simp only [precommitsFor, List.map_cons, Option.filter_some, hB, if_true, hdrop]
            simp only [votedPower_cons_some]
            congr 2
            omega
          · rw [if_neg hB, ih (idx + 1) t (by omega) hsig' h0 (by omega)]
            simp only [precommitsFor, List.map_cons, Option.filter_some, hB, hdrop]
            rfl

/-- `VerifyCommit` accepts a commit that passes `ValidateBasic`, has one slot per validator,
the height asked for and the block asked for, whose precommits all carry valid signatures, and
whose precommits for the block hold more than two thirds of the power. -/
theorem verifyCommit_ok {vals : ValidatorSet} (hv : vals.Inv) {leagueID : String}
    {blockID : BlockID} {height : Int} {commit : Commit} (hvb : commit.ValidateBasic = none)
    (hsize : commit.Precommits.length = vals.validators.length) (hh : commit.Height = height)
    (hB : commit.BlockID = blockID)
    (hsig : ∀ j v, slot commit.Precommits j = some v → ∀ val, vals.validators[j]? = some val →
      crypto.verifyBytes val.pubKey (v.SignBytes cdc leagueID) v.Signature = true)
    (hq : powerSum vals.validators * 2 / 3 <
      votedPower vals.validators (precommitsFor blockID commit.Precommits)) :
    vals.VerifyCommit cdc crypto leagueID blockID height commit = .ok (none, vals) := by
  have hT := hv.sum_le
  have h0 := powerSum_nonneg fun v hv' => (hv.powers v hv').1
  have htally := @tallyPrecommits_ok cdc crypto vals hv leagueID blockID commit.Precommits 0 0
    (by omega) (by simpa using hsig) le_rfl (by simpa using hT)
  rw [VerifyCommit, hvb]
  dsimp only
  rw [if_neg (by simp [Size, hsize]), if_neg (by simp [hh]), hB,
    if_neg (by simp [BlockID.equals_iff]), htally, Result.ok_bind]
  dsimp only
  rw [totalVotingPower_of_wellFormed hv.toWellFormed, Result.ok_bind]
  dsimp only
  rw [wrap64_of_power (by omega) (by unfold MaxTotalVotingPower at hT ⊢; omega),
    Int.tdiv_eq_ediv_of_nonneg (by omega), if_pos (by simpa using hq)]

end ValidatorSet

namespace VoteSet

variable {cdc : Codec} {crypto : Crypto}

/-- The votes `Vote.ValidateBasic` lets through: for a nil block or a complete one. -/
def ValidBlockID (vote : Vote) : Prop := vote.BlockID.IsZero ∨ vote.BlockID.IsComplete

/-- A precommit vote set that any calls with such votes have given a quorum for a block makes a
commit that `ValidateBasic` and `VerifyCommit` accept, for that block at the set's height. -/
theorem reachable_makeCommit_verifies {vs : VoteSet} (hcodec : BlockID.KeyCodec cdc)
    (h : Reachable cdc crypto ValidBlockID vs) (htype : vs.type_ = PrecommitType)
    {B : BlockID} (hB : vs.maj23 = some B) (hnz : B.IsZero = false) :
    ∃ c, vs.MakeCommit = .ok c ∧ c.ValidateBasic = none ∧
      vs.valSet.VerifyCommit cdc crypto vs.leagueID B vs.height c = .ok (none, vs.valSet) := by
  have hi := h.inv
  have hpos : ∀ v ∈ vs.valSet.validators, 0 < v.votingPower := fun v hv =>
    (hi.valSet.powers v hv).1
  obtain ⟨⟨vB, hvB, rfl⟩, bv, hbv, hq, hcan⟩ := hi.maj23 _ hB
  -- every validator tallied for the quorum block has its canonical precommit for that block
  have hcover : ∀ j, (slot bv.votes j).isSome →
      (slot (ValidatorSet.precommitsFor vB.BlockID vs.votes) j).isSome := fun j hj => by
    obtain ⟨w, hw, hkey⟩ := hcan j hj
    have hwB : w.BlockID = vB.BlockID :=
      BlockID.key_injective hcodec ((hi.checked j w hw).pred) hvB hkey
    simp [ValidatorSet.precommitsFor, slot_map_filter, hw, hwB, BlockID.equals_iff]
  have hmore := votedPower_mono hpos hcover
  rw [← (hi.tally _ bv hbv).sum] at hmore
  have h0 := powerSum_nonneg hpos
  -- the quorum is positive, so some validator has a canonical vote
  have hex : ∃ j v, slot vs.votes j = some v := by
    by_contra hnone
    simp only [not_exists] at hnone
    have hzero := votedPower_mono hpos (L := vs.valSet.validators)
      (a := ValidatorSet.precommitsFor vB.BlockID vs.votes) (b := []) fun j hj => by
        have hj0 : slot vs.votes j = none := Option.eq_none_iff_forall_ne_some.mpr (hnone j)
        simp [ValidatorSet.precommitsFor, slot_map_filter, hj0] at hj
    simp at hzero
    omega
  have hall : ∀ j v, slot vs.votes j = some v →
      v.Type_ = PrecommitType ∧ v.Height = vs.height ∧ v.Round = vs.round := fun j v hv =>
    have hc := hi.checked j v hv
    ⟨hc.type_.trans htype, hc.height, hc.round⟩
  have hvb : (NewCommit vB.BlockID vs.votes).ValidateBasic = none :=
    Commit.validateBasic_eq_none hnz hex hall
  refine ⟨_, by rw [MakeCommit, if_neg (by simp [htype]), hB], hvb, ?_⟩
  refine ValidatorSet.verifyCommit_ok hi.valSet hvb hi.length ?_ rfl (fun j v hv val hval => ?_)
    (by simp only [NewCommit]; omega)
  · rw [Commit.Height]
    exact congrArg Prod.fst (firstHeightRound_eq hex fun j v hv => (hall j v hv).2)
  · have hc := hi.checked j v hv
    obtain ⟨hlt, rfl⟩ := List.getElem?_eq_some_iff.mp hval
    exact (Vote.verify_eq_none hc.verify).2

theorem reachable_makeCommit_verifies_signed :
    let B : BlockID := ⟨List.replicate 32 7, ⟨1, List.replicate 32 9⟩⟩
    ∃ vs, Reachable aminoCodec echoCrypto ValidBlockID vs ∧ vs.valSet.validators.length = 2 ∧
      vs.type_ = PrecommitType ∧ vs.maj23 = some B ∧ B.IsZero = false ∧
      ∃ c, vs.MakeCommit = .ok c ∧ c.ValidateBasic = none ∧
        vs.valSet.VerifyCommit aminoCodec echoCrypto vs.leagueID B vs.height c =
          .ok (none, vs.valSet) := by
  obtain ⟨vs, hr, hlen, htype, -, hB⟩ :=
    reachable_precommits (P := ValidBlockID) fun v hv => .inr (by rw [hv]; decide)
  exact ⟨vs, hr, hlen, htype, hB, by decide,
    reachable_makeCommit_verifies aminoCodec_keyCodec hr htype hB (by decide)⟩

end VoteSet

end Dgrid.Types
