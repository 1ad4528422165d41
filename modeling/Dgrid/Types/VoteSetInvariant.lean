import Dgrid.Types.Commit
import Dgrid.Types.ValidatorSetInvariant
import Dgrid.Types.Amino

/-! The invariants of a vote set over a reachable validator set. The canonical votes and each
block's tally are lists indexed by validator; a bit array mirrors each of them; each sum is the
power of the validators that have a vote there; every stored vote is a checked vote of its
validator; a validator tallied for some block has a canonical vote; and once a block has a
quorum, every validator tallied for it has a canonical vote for it. -/

namespace Dgrid.Types
open Go Dgrid.Common

/-! ### Slots, sums and bits -/

/-- The vote stored at position `i`, nil past the end. -/
def slot (votes : List (Option Vote)) (i : Nat) : Option Vote := votes.getD i none

theorem slot_eq_getD (votes : List (Option Vote)) (i : Nat) : slot votes i = votes.getD i none :=
  rfl

@[simp] theorem slot_cons_zero (a : Option Vote) (votes : List (Option Vote)) :
    slot (a :: votes) 0 = a := rfl

@[simp] theorem slot_cons_succ (a : Option Vote) (votes : List (Option Vote)) (n : Nat) :
    slot (a :: votes) (n + 1) = slot votes n := rfl

@[simp] theorem slot_nil (n : Nat) : slot [] n = none := rfl

theorem slot_set {votes : List (Option Vote)} {i j : Nat} {v : Option Vote}
    (hi : i < votes.length) : slot (votes.set i v) j = if i = j then v else slot votes j := by
  simp only [slot_eq_getD, List.getD_eq_getElem?_getD, List.getElem?_set]
  split_ifs <;> simp_all

theorem slot_replicate (n j : Nat) : slot (List.replicate n none) j = none := by
  simp only [slot_eq_getD, List.getD_eq_getElem?_getD, List.getElem?_replicate]
  split <;> rfl

/-- The power of the validators with a vote in `votes`, position by position. -/
def votedPower : List Validator → List (Option Vote) → Int
  | v :: L, some _ :: votes => v.votingPower + votedPower L votes
  | _ :: L, none :: votes => votedPower L votes
  | _, _ => 0

@[simp] theorem votedPower_nil_left (votes : List (Option Vote)) : votedPower [] votes = 0 := by
  cases votes <;> rfl

@[simp] theorem votedPower_nil_right (L : List Validator) : votedPower L [] = 0 := by
  cases L <;> rfl

@[simp] theorem votedPower_cons_some (v : Validator) (L : List Validator) (x : Vote)
    (votes : List (Option Vote)) :
    votedPower (v :: L) (some x :: votes) = v.votingPower + votedPower L votes := rfl

@[simp] theorem votedPower_cons_none (v : Validator) (L : List Validator)
    (votes : List (Option Vote)) : votedPower (v :: L) (none :: votes) = votedPower L votes := rfl

theorem votedPower_replicate (L : List Validator) (n : Nat) :
    votedPower L (List.replicate n none) = 0 := by
  induction n generalizing L with
  | zero => cases L <;> rfl
  | succ n ih => cases L <;> simp [List.replicate_succ, ih]

theorem votedPower_congr {L : List Validator} {votes votes' : List (Option Vote)}
    (hlen : votes.length = votes'.length)
    (h : ∀ j, (slot votes j).isSome = (slot votes' j).isSome) :
    votedPower L votes = votedPower L votes' := by
  induction votes generalizing L votes' with
  | nil => cases votes' <;> simp_all
  | cons a votes ih =>
      cases votes' with
      | nil => simp at hlen
      | cons b votes' =>
          -- position 0 holds a vote in one list exactly when it does in the other
          have h0 : a.isSome = b.isSome := h 0
          have hrest : ∀ j, (slot votes j).isSome = (slot votes' j).isSome := fun j => h (j + 1)
          cases L with
          | nil => rfl
          | cons v L =>
              have hrec := ih (L := L) (by simpa using hlen) hrest
              cases a <;> cases b
              · simp only [votedPower_cons_none, hrec]
              · cases h0
              · cases h0
              · simp only [votedPower_cons_some, hrec]

theorem votedPower_set {L : List Validator} {votes : List (Option Vote)} {i : Nat}
    (hi : i < L.length) (hv : i < votes.length) (hnone : slot votes i = none) (v : Vote) :
    votedPower L (votes.set i (some v)) = votedPower L votes + L[i].votingPower := by
  induction votes generalizing L i with
  | nil => simp at hv
  | cons a votes ih =>
      cases L with
      | nil => simp at hi
      | cons w L =>
          cases i with
          | zero =>
              simp only [slot_cons_zero] at hnone
              subst hnone
              simp [add_comm]
          | succ i =>
              have := ih (L := L) (i := i) (by simpa using hi) (by simpa using hv)
                (by simpa using hnone)
              cases a <;> simp [this, add_assoc]

theorem votedPower_nonneg {L : List Validator} (hpos : ∀ v ∈ L, 0 < v.votingPower)
    (votes : List (Option Vote)) : 0 ≤ votedPower L votes := by
  induction votes generalizing L with
  | nil => simp
  | cons a votes ih =>
      cases L with
      | nil => simp
      | cons w L =>
          have hw := hpos w List.mem_cons_self
          have := ih (fun v hv => hpos v (List.mem_cons_of_mem w hv))
          cases a <;> simp <;> omega

theorem votedPower_le {L : List Validator} (hpos : ∀ v ∈ L, 0 < v.votingPower)
    (votes : List (Option Vote)) : votedPower L votes ≤ powerSum L := by
  induction votes generalizing L with
  | nil =>
      rw [votedPower_nil_right]
      exact powerSum_nonneg hpos
  | cons a votes ih =>
      cases L with
      | nil => simp
      | cons w L =>
          have hw := hpos w List.mem_cons_self
          have := ih (fun v hv => hpos v (List.mem_cons_of_mem w hv))
          cases a <;> simp <;> omega

theorem slot_eq_getElem {votes : List (Option Vote)} {i : Nat} (hi : i < votes.length) :
    slot votes i = votes[i] := List.getD_eq_getElem _ _ hi

theorem slot_cons (a : Option Vote) (votes : List (Option Vote)) (n : Nat) :
    slot (a :: votes) n = if n = 0 then a else slot votes (n - 1) := by
  cases n <;> rfl

theorem slot_map_filter (p : Vote → Bool) (votes : List (Option Vote)) (j : Nat) :
    slot (votes.map (Option.filter p)) j = (slot votes j).filter p := by
  induction votes generalizing j with
  | nil => rfl
  | cons a votes ih => cases j <;> simp [ih]

theorem votedPower_mono {L : List Validator} (hpos : ∀ v ∈ L, 0 < v.votingPower)
    {a b : List (Option Vote)} (h : ∀ j, (slot a j).isSome → (slot b j).isSome) :
    votedPower L a ≤ votedPower L b := by
  induction a generalizing L b with
  | nil => simpa using votedPower_nonneg hpos b
  | cons x a ih =>
      cases L with
      | nil => simp
      | cons w L =>
          have hw := hpos w List.mem_cons_self
          have hpos' := fun v hv => hpos v (List.mem_cons_of_mem w hv)
          have h0 := h 0
          -- past the first position, the rest of `b` (nothing, if `b` is empty) covers the rest
          cases b with
          | nil =>
              have ih' := ih hpos' (b := []) fun j hj => by simpa using h (j + 1) (by simpa using hj)
              cases x with
              | none => simpa using ih'
              | some v => simp at h0
          | cons y b =>
              have ih' := ih hpos' (b := b) fun j hj => by simpa using h (j + 1) (by simpa using hj)
              cases x with
              | none =>
                  cases y with
                  | none => simpa using ih'
                  | some u =>
                      simp only [votedPower_cons_none, votedPower_cons_some]
                      omega
              | some v =>
                  cases y with
                  | none => simp at h0
                  | some u =>
                      simp only [votedPower_cons_some]
                      omega

/-- A bit array that mirrors which positions of `votes` hold a vote. -/
def BitsMatch (bA? : Option BitArray) (votes : List (Option Vote)) : Prop :=
  ∃ bA, bA? = some bA ∧ bA.Wf ∧ bA.Bits = votes.length ∧
    ∀ j < votes.length, bA.bit j = (slot votes j).isSome

theorem bitsMatch_replicate {n : Nat} (hn : 0 < n) :
    BitsMatch (NewBitArray n) (List.replicate n none) := by
  obtain ⟨bA, hbA⟩ : ∃ bA, NewBitArray n = some bA := ⟨_, if_neg (by omega)⟩
  obtain ⟨hw, hbits⟩ := BitArray.newBitArray_wf hbA
  refine ⟨bA, hbA, hw, by simpa using hbits, fun j _ => ?_⟩
  rw [BitArray.bit_newBitArray hbA, slot_replicate]
  rfl

theorem BitsMatch.getIndex {bA? : Option BitArray} {votes : List (Option Vote)}
    (h : BitsMatch bA? votes) {j : Nat} (hj : j < votes.length) :
    BitArray.GetIndex bA? j = .ok (slot votes j).isSome := by
  obtain ⟨bA, rfl, hw, hbits, hbit⟩ := h
  rw [BitArray.GetIndex, BitArray.getIndex_eq_bit hw (by omega), hbit j hj]

theorem BitsMatch.setIndex {bA? : Option BitArray} {votes : List (Option Vote)}
    (h : BitsMatch bA? votes) {i : Nat} (hi : i < votes.length) (v : Vote) :
    ∃ bA', BitArray.SetIndex bA? i true = .ok (true, bA') ∧
      BitsMatch bA' (votes.set i (some v)) := by
  obtain ⟨bA, rfl, hw, hbits, hbit⟩ := h
  obtain ⟨bA', hset, hw', hbits', hbit'⟩ := BitArray.setIndex_true hw (i := i) (by omega)
  refine ⟨some bA', by rw [BitArray.SetIndex, hset]; rfl, bA', rfl, hw',
    by rw [hbits', hbits, List.length_set], fun j hj => ?_⟩
  rw [hbit', slot_set hi]
  by_cases hji : j = i
  · subst hji
    simp
  · rw [List.length_set] at hj
    simp [hji, Ne.symm hji, hbit j hj]

theorem BitsMatch.congr {bA? : Option BitArray} {votes votes' : List (Option Vote)}
    (h : BitsMatch bA? votes) (hlen : votes'.length = votes.length)
    (hs : ∀ j, (slot votes' j).isSome = (slot votes j).isSome) : BitsMatch bA? votes' := by
  obtain ⟨bA, rfl, hw, hbits, hbit⟩ := h
  exact ⟨bA, rfl, hw, hlen ▸ hbits, fun j hj => by rw [hbit j (hlen ▸ hj), hs]⟩

theorem copyVotes_spec (src : List (Option Vote)) :
    ∀ (votes : List (Option Vote)) (k : Nat), k + src.length ≤ votes.length →
      ∃ votes', copyVotes k votes src = .ok votes' ∧ votes'.length = votes.length ∧
        ∀ j, slot votes' j = if k ≤ j then (slot src (j - k)).or (slot votes j) else slot votes j := by
  induction src with
  | nil =>
      intro votes k _
      refine ⟨votes, rfl, rfl, fun j => ?_⟩
      split <;> rfl
  | cons a src ih =>
      intro votes k hlen
      simp only [List.length_cons] at hlen
      cases a with
      | none =>
          obtain ⟨votes', hcopy, hlen', hslot⟩ := ih votes (k + 1) (by omega)
          refine ⟨votes', hcopy, hlen', fun j => ?_⟩
          rw [hslot, slot_cons]
          rcases Nat.lt_trichotomy j k with hj | rfl | hj
          · simp [show ¬k + 1 ≤ j by omega, show ¬k ≤ j by omega]
          · simp
          · simp [show k + 1 ≤ j by omega, show k ≤ j by omega, show j - k ≠ 0 by omega,
              show j - k - 1 = j - (k + 1) by omega]
      | some v =>
          have hk : k < votes.length := by omega
          obtain ⟨votes', hcopy, hlen', hslot⟩ :=
            ih (votes.set k (some v)) (k + 1) (by rw [List.length_set]; omega)
          refine ⟨votes', ?_, by rw [hlen', List.length_set], fun j => ?_⟩
          · rw [copyVotes, update_of_lt hk, Result.ok_bind]
            exact hcopy
          rw [hslot, slot_cons, slot_set hk]
          rcases Nat.lt_trichotomy j k with hj | rfl | hj
          · simp [show ¬k + 1 ≤ j by omega, show ¬k ≤ j by omega, show k ≠ j by omega]
          · simp
          · simp [show k + 1 ≤ j by omega, show k ≤ j by omega, show j - k ≠ 0 by omega,
              show j - k - 1 = j - (k + 1) by omega, show k ≠ j by omega]

namespace BlockVotes

variable {bv : BlockVotes} {vote : Vote} {i : Nat}

theorem addVerifiedVote_of_some (hidx : vote.ValidatorIndex = i) (hi : i < bv.votes.length)
    {w : Vote} (hw : slot bv.votes i = some w) (p : Int) : bv.addVerifiedVote vote p = .ok bv := by
  rw [slot_eq_getElem hi] at hw
  rw [addVerifiedVote, hidx, index_of_lt hi, Result.ok_bind, hw]
  rfl

theorem addVerifiedVote_of_none (hidx : vote.ValidatorIndex = i) (hi : i < bv.votes.length)
    (hbits : BitsMatch bv.bitArray bv.votes) (hnone : slot bv.votes i = none) (p : Int) :
    ∃ bA, bv.addVerifiedVote vote p =
        .ok { bv with bitArray := bA, votes := bv.votes.set i (some vote)
                      sum := wrap64 (bv.sum + p) } ∧
      BitsMatch bA (bv.votes.set i (some vote)) := by
  obtain ⟨bA, hset, hbA⟩ := hbits.setIndex hi vote
  refine ⟨bA, ?_, hbA⟩
  rw [slot_eq_getElem hi] at hnone
  rw [addVerifiedVote, hidx, index_of_lt hi, Result.ok_bind, hnone]
  dsimp only
  rw [hset, Result.ok_bind, update_of_lt hi, Result.ok_bind]
  rfl

end BlockVotes

/-! ### Arithmetic of the tallies -/

theorem wrap64_of_power {x : Int} (h0 : 0 ≤ x) (h : x ≤ 2 * MaxTotalVotingPower) :
    wrap64 x = x := by
  apply wrap64_of_inInt64
  unfold InInt64 minInt64 maxInt64
  unfold MaxTotalVotingPower at h
  omega

theorem quorum_eq {T : Int} (h0 : 0 ≤ T) (hT : T ≤ MaxTotalVotingPower) :
    wrap64 ((wrap64 (T * 2)).tdiv 3 + 1) = T * 2 / 3 + 1 := by
  rw [wrap64_of_power (x := T * 2) (by omega) (by omega), Int.tdiv_eq_ediv_of_nonneg (by omega)]
  exact wrap64_of_power (by omega) (by unfold MaxTotalVotingPower at hT ⊢; omega)

theorem wrap64_votedPower_set {vals : ValidatorSet} (hv : vals.Inv) {votes : List (Option Vote)}
    {i : Nat} {val : Validator} (hval : vals.validators[i]? = some val)
    (hlen : votes.length = vals.validators.length) (hnone : slot votes i = none) (v : Vote) :
    wrap64 (votedPower vals.validators votes + val.votingPower) =
      votedPower vals.validators (votes.set i (some v)) := by
  obtain ⟨hi, rfl⟩ := List.getElem?_eq_some_iff.mp hval
  have hpos : ∀ w ∈ vals.validators, 0 < w.votingPower := fun w hw => (hv.powers w hw).1
  have hset := votedPower_set hi (hlen ▸ hi) hnone v
  have hle := votedPower_le hpos (votes.set i (some v))
  rw [← hset]
  have hsum := hv.sum_le
  unfold MaxTotalVotingPower at hsum
  exact wrap64_of_power (hset ▸ votedPower_nonneg hpos _) (by unfold MaxTotalVotingPower; omega)

/-! ### The invariant -/

namespace VoteSet

variable (cdc : Codec) (crypto : Crypto) (P : Vote → Prop)

/-- What no call changes: the league, height, round and type, and the validator set. -/
structure Frame (vs vs' : VoteSet) : Prop where
  leagueID : vs'.leagueID = vs.leagueID
  height : vs'.height = vs.height
  round : vs'.round = vs.round
  type_ : vs'.type_ = vs.type_
  valSet : vs'.valSet = vs.valSet

/-- A vote stored at position `i`: a vote of validator `i` for the set's height, round and type,
whose signature verified against that validator's key, and that the caller let through. -/
structure Checked (vs : VoteSet) (i : Nat) (v : Vote) : Prop where
  index : v.ValidatorIndex = i
  height : v.Height = vs.height
  round : v.Round = vs.round
  type_ : v.Type_ = vs.type_
  lt : i < vs.valSet.validators.length
  verify : v.Verify cdc crypto vs.leagueID vs.valSet.validators[i].pubKey = none
  pred : P v

/-- The tally of block key `K`: indexed by validator, mirrored by its bit array, summed, and
holding checked votes for `K` only. -/
structure TallyInv (vs : VoteSet) (K : Bytes) (bv : BlockVotes) : Prop where
  length : bv.votes.length = vs.valSet.validators.length
  bits : BitsMatch bv.bitArray bv.votes
  sum : bv.sum = votedPower vs.valSet.validators bv.votes
  key : ∀ j v, slot bv.votes j = some v → v.BlockID.Key cdc = K
  checked : ∀ j v, slot bv.votes j = some v → Checked cdc crypto P vs j v

/-- The quorum block: the block of a vote the caller let through, whose tally holds two thirds
of the power, and every validator tallied for it has its canonical vote for it. -/
structure Maj23Inv (vs : VoteSet) (B : BlockID) : Prop where
  pred : ∃ v, P v ∧ v.BlockID = B
  tally : ∃ bv, vs.votesByBlock (B.Key cdc) = some bv ∧
    powerSum vs.valSet.validators * 2 / 3 + 1 ≤ bv.sum ∧
    ∀ j, (slot bv.votes j).isSome → ∃ w, slot vs.votes j = some w ∧ w.BlockID.Key cdc = B.Key cdc

/-- The invariant of a vote set over a validator set in use. -/
structure Inv (vs : VoteSet) : Prop where
  valSet : vs.valSet.Inv
  length : vs.votes.length = vs.valSet.validators.length
  bits : BitsMatch vs.votesBitArray vs.votes
  sum : vs.sum = votedPower vs.valSet.validators vs.votes
  checked : ∀ j v, slot vs.votes j = some v → Checked cdc crypto P vs j v
  tally : ∀ K bv, vs.votesByBlock K = some bv → TallyInv cdc crypto P vs K bv
  covered : ∀ K bv j, vs.votesByBlock K = some bv → (slot bv.votes j).isSome →
    (slot vs.votes j).isSome
  maj23 : ∀ B, vs.maj23 = some B → Maj23Inv cdc P vs B

variable {cdc crypto P}

theorem Checked.frame {vs vs' : VoteSet} (hf : Frame vs vs') {i : Nat} {v : Vote}
    (hc : Checked cdc crypto P vs i v) : Checked cdc crypto P vs' i v := by
  obtain ⟨hl, hh, hr, ht, hv⟩ := hf
  rcases vs with ⟨_, _, _, _, _, _, _, _, _, _, _⟩
  rcases vs' with ⟨_, _, _, _, _, _, _, _, _, _, _⟩
  dsimp only at hl hh hr ht hv
  subst hl hh hr ht hv
  exact ⟨hc.index, hc.height, hc.round, hc.type_, hc.lt, hc.verify, hc.pred⟩

theorem TallyInv.frame {vs vs' : VoteSet} (hf : Frame vs vs') {K : Bytes} {bv : BlockVotes}
    (ht : TallyInv cdc crypto P vs K bv) : TallyInv cdc crypto P vs' K bv where
  length := hf.valSet ▸ ht.length
  bits := ht.bits
  sum := hf.valSet ▸ ht.sum
  key := ht.key
  checked j v hj := (ht.checked j v hj).frame hf

theorem tallyInv_new {vs : VoteSet} (hv : vs.valSet.Inv) (K : Bytes) (peerMaj23 : Bool) :
    TallyInv cdc crypto P vs K (newBlockVotes peerMaj23 vs.valSet.Size) where
  length := List.length_replicate ..
  bits := bitsMatch_replicate (List.length_pos_iff.mpr hv.nonempty)
  sum := (votedPower_replicate _ _).symm
  key j v h := by simp [newBlockVotes, slot_replicate] at h
  checked j v h := by simp [newBlockVotes, slot_replicate] at h

theorem inv_of_newVoteSet {leagueID : String} {height round : Int} {type_ : SignedMsgType}
    {valSet : ValidatorSet} {vs : VoteSet} (hv : valSet.Inv)
    (h : NewVoteSet leagueID height round type_ valSet = .ok vs) : Inv cdc crypto P vs := by
  unfold NewVoteSet at h
  split_ifs at h
  cases h
  exact { valSet := hv
          length := List.length_replicate ..
          bits := bitsMatch_replicate (List.length_pos_iff.mpr hv.nonempty)
          sum := (votedPower_replicate _ _).symm
          checked := by simp [slot_replicate]
          tally := by simp
          covered := by simp
          maj23 := by simp }

theorem Frame.refl (vs : VoteSet) : Frame vs vs := ⟨rfl, rfl, rfl, rfl, rfl⟩

theorem Frame.trans {vs₁ vs₂ vs₃ : VoteSet} (h₁ : Frame vs₁ vs₂) (h₂ : Frame vs₂ vs₃) :
    Frame vs₁ vs₃ :=
  ⟨h₂.leagueID.trans h₁.leagueID, h₂.height.trans h₁.height, h₂.round.trans h₁.round,
    h₂.type_.trans h₁.type_, h₂.valSet.trans h₁.valSet⟩

theorem Inv.setPeerMaj23s {vs : VoteSet} (hi : Inv cdc crypto P vs)
    (g : P2PID → Option BlockID) :
    Inv cdc crypto P { vs with peerMaj23s := g } where
  valSet := hi.valSet
  length := hi.length
  bits := hi.bits
  sum := hi.sum
  checked j v h := (hi.checked j v h).frame (by exact ⟨rfl, rfl, rfl, rfl, rfl⟩)
  tally K bv h := (hi.tally K bv h).frame (by exact ⟨rfl, rfl, rfl, rfl, rfl⟩)
  covered := hi.covered
  maj23 B h := ⟨(hi.maj23 B h).pred, (hi.maj23 B h).tally⟩

theorem Inv.setTally {vs : VoteSet} (hi : Inv cdc crypto P vs) {K : Bytes} {bv : BlockVotes}
    (ht : TallyInv cdc crypto P vs K bv)
    (hcov : ∀ j, (slot bv.votes j).isSome → (slot vs.votes j).isSome)
    (hmaj : ∀ B, vs.maj23 = some B → B.Key cdc = K →
      powerSum vs.valSet.validators * 2 / 3 + 1 ≤ bv.sum ∧
      ∀ j, (slot bv.votes j).isSome → ∃ w, slot vs.votes j = some w ∧ w.BlockID.Key cdc = K) :
    Inv cdc crypto P { vs with votesByBlock := Function.update vs.votesByBlock K (some bv) } where
  valSet := hi.valSet
  length := hi.length
  bits := hi.bits
  sum := hi.sum
  checked j v h := (hi.checked j v h).frame (by exact ⟨rfl, rfl, rfl, rfl, rfl⟩)
  tally K' bv' h := by
    dsimp only at h
    by_cases hK : K' = K
    · subst hK
      rw [Function.update_self, Option.some.injEq] at h
      exact h ▸ ht.frame (by exact ⟨rfl, rfl, rfl, rfl, rfl⟩)
    · rw [Function.update_of_ne hK] at h
      exact (hi.tally K' bv' h).frame (by exact ⟨rfl, rfl, rfl, rfl, rfl⟩)
  covered K' bv' j h := by
    dsimp only at h
    by_cases hK : K' = K
    · subst hK
      rw [Function.update_self, Option.some.injEq] at h
      exact h ▸ hcov j
    · rw [Function.update_of_ne hK] at h
      exact hi.covered K' bv' j h
  maj23 B hB := by
    obtain ⟨hpred, bv₀, h₀, hq, hcan⟩ := hi.maj23 B hB
    refine ⟨hpred, ?_⟩
    by_cases hK : B.Key cdc = K
    · obtain ⟨hq', hcan'⟩ := hmaj B hB hK
      refine ⟨bv, by dsimp only; rw [hK, Function.update_self], hq', fun j hj => ?_⟩
      rw [hK]
      exact hcan' j hj
    · exact ⟨bv₀, by dsimp only; rw [Function.update_of_ne hK]; exact h₀, hq, hcan⟩

theorem Inv.setVote {vs : VoteSet} (hi : Inv cdc crypto P vs) {i : Nat} {vote : Vote}
    (hc : Checked cdc crypto P vs i vote) {bA : Option BitArray}
    (hbA : BitsMatch bA (vs.votes.set i (some vote)))
    {sum : Int} (hsum : sum = votedPower vs.valSet.validators (vs.votes.set i (some vote)))
    (hmaj : ∀ B, vs.maj23 = some B → ∀ bv, vs.votesByBlock (B.Key cdc) = some bv →
      (slot bv.votes i).isSome → vote.BlockID.Key cdc = B.Key cdc) :
    Inv cdc crypto P { vs with votes := vs.votes.set i (some vote), votesBitArray := bA, sum } where
  valSet := hi.valSet
  length := by rw [List.length_set]; exact hi.length
  bits := hbA
  sum := hsum
  checked j v h := by
    rw [slot_set (hi.length ▸ hc.lt)] at h
    split_ifs at h with hij
    · cases h
      exact hij ▸ hc.frame (by exact ⟨rfl, rfl, rfl, rfl, rfl⟩)
    · exact (hi.checked j v h).frame (by exact ⟨rfl, rfl, rfl, rfl, rfl⟩)
  tally K bv h := (hi.tally K bv h).frame (by exact ⟨rfl, rfl, rfl, rfl, rfl⟩)
  covered K bv j h hj := by
    rw [slot_set (hi.length ▸ hc.lt)]
    split_ifs
    · rfl
    · exact hi.covered K bv j h hj
  maj23 B hB := by
    obtain ⟨hpred, bv, h, hq, hcan⟩ := hi.maj23 B hB
    refine ⟨hpred, bv, h, hq, fun j hj => ?_⟩
    rw [slot_set (hi.length ▸ hc.lt)]
    split_ifs with hij
    · exact ⟨vote, rfl, hmaj B hB bv h (hij ▸ hj)⟩
    · exact hcan j hj

theorem Inv.copy {vs : VoteSet} (hi : Inv cdc crypto P vs) {vote : Vote} (hp : P vote)
    {bv : BlockVotes}
    (hbv : vs.votesByBlock (vote.BlockID.Key cdc) = some bv)
    (hq : powerSum vs.valSet.validators * 2 / 3 + 1 ≤ bv.sum) {votes : List (Option Vote)}
    (hcopy : copyVotes 0 vs.votes bv.votes = .ok votes) :
    Inv cdc crypto P { vs with maj23 := some vote.BlockID, votes } := by
  have ht := hi.tally _ bv hbv
  obtain ⟨votes', hcopy', hlen, hslot⟩ :=
    copyVotes_spec bv.votes vs.votes 0 (by rw [ht.length, hi.length]; omega)
  rw [hcopy, Result.ok.injEq] at hcopy'
  subst hcopy'
  have hslot' : ∀ j, slot votes j = (slot bv.votes j).or (slot vs.votes j) := fun j => by
    simpa using hslot j
  -- the block's validators all have canonical votes, so only the votes there change
  have hsome : ∀ j, (slot votes j).isSome = (slot vs.votes j).isSome := fun j => by
    rw [hslot']
    cases hb : slot bv.votes j with
    | none => rfl
    | some v => simpa [hb] using (hi.covered _ bv j hbv (by simp [hb])).symm
  exact
    { valSet := hi.valSet
      length := hlen.trans hi.length
      bits := hi.bits.congr hlen hsome
      sum := hi.sum.trans (votedPower_congr hlen.symm (fun j => (hsome j).symm))
      checked := fun j v h => by
        rw [hslot'] at h
        cases hb : slot bv.votes j with
        | none =>
            rw [hb, Option.none_or] at h
            exact (hi.checked j v h).frame (by exact ⟨rfl, rfl, rfl, rfl, rfl⟩)
        | some w =>
            rw [hb, Option.some_or, Option.some.injEq] at h
            exact h ▸ (ht.checked j w hb).frame (by exact ⟨rfl, rfl, rfl, rfl, rfl⟩)
      tally := fun K bv' h => (hi.tally K bv' h).frame (by exact ⟨rfl, rfl, rfl, rfl, rfl⟩)
      covered := fun K bv' j h hj => (hsome j).symm ▸ hi.covered K bv' j h hj
      maj23 := fun B hB => by
        cases hB
        refine ⟨⟨vote, hp, rfl⟩, bv, hbv, hq, fun j hj => ?_⟩
        obtain ⟨w, hw⟩ := Option.isSome_iff_exists.mp hj
        exact ⟨w, by rw [hslot', hw, Option.some_or], ht.key j w hw⟩ }

theorem TallyInv.addVerifiedVote {vs : VoteSet} (hv : vs.valSet.Inv) {K : Bytes}
    {bv : BlockVotes} (ht : TallyInv cdc crypto P vs K bv) {i : Nat} {vote : Vote}
    (hc : Checked cdc crypto P vs i vote) (hK : vote.BlockID.Key cdc = K) {val : Validator}
    (hval : vs.valSet.validators[i]? = some val) :
    ∃ bv', bv.addVerifiedVote vote val.votingPower = .ok bv' ∧ TallyInv cdc crypto P vs K bv' ∧
      bv.sum ≤ bv'.sum ∧ ∀ j, (slot bv'.votes j).isSome → j = i ∨ (slot bv.votes j).isSome := by
  have hlt : i < bv.votes.length := ht.length ▸ hc.lt
  cases hs : slot bv.votes i with
  | some w =>
      exact ⟨bv, BlockVotes.addVerifiedVote_of_some hc.index hlt hs _, ht, le_rfl,
        fun j hj => .inr hj⟩
  | none =>
      obtain ⟨bA, hadd, hbA⟩ :=
        BlockVotes.addVerifiedVote_of_none hc.index hlt ht.bits hs val.votingPower
      have hsum := wrap64_votedPower_set hv hval ht.length hs vote
      have hgrow : bv.sum ≤ wrap64 (bv.sum + val.votingPower) := by
        obtain ⟨hi, rfl⟩ := List.getElem?_eq_some_iff.mp hval
        rw [ht.sum, hsum, votedPower_set hi hlt hs]
        have := (hv.powers _ (List.getElem_mem hi)).1
        omega
      refine ⟨_, hadd, ⟨by rw [List.length_set]; exact ht.length, hbA, by rw [ht.sum]; exact hsum,
        fun j v h => ?_, fun j v h => ?_⟩, hgrow, fun j hj => ?_⟩
      · rw [slot_set hlt] at h
        split_ifs at h with hij
        · cases h
          exact hK
        · exact ht.key j v h
      · rw [slot_set hlt] at h
        split_ifs at h with hij
        · cases h
          exact hij ▸ hc
        · exact ht.checked j v h
      · rw [slot_set hlt] at hj
        split_ifs at hj with hij
        · exact .inl hij.symm
        · exact .inr hj

theorem recordVote_inv {vs vs₁ : VoteSet} (hi : Inv cdc crypto P vs) {i : Nat} {vote : Vote}
    (hc : Checked cdc crypto P vs i vote) {val : Validator}
    (hval : vs.valSet.validators[i]? = some val) {c : Option Vote}
    (h : vs.recordVote cdc vote (vote.BlockID.Key cdc) val.votingPower = .ok (c, vs₁)) :
    Inv cdc crypto P vs₁ ∧ Frame vs vs₁ ∧ vs₁.votesByBlock = vs.votesByBlock ∧
      vs₁.maj23 = vs.maj23 ∧ c = slot vs.votes i ∧ (slot vs₁.votes i).isSome ∧
      ∀ B, vs.maj23 = some B → B.Key cdc = vote.BlockID.Key cdc → slot vs₁.votes i = some vote := by
  have hlt : i < vs.votes.length := hi.length ▸ hc.lt
  obtain ⟨bA, hset, hbA⟩ := hi.bits.setIndex hlt vote
  rw [recordVote, hc.index, index_of_lt hlt, Result.ok_bind, ← slot_eq_getElem hlt] at h
  cases hs : slot vs.votes i with
  | none =>
      rw [hs] at h
      dsimp only at h
      rw [update_of_lt hlt, Result.ok_bind, hset, Result.ok_bind, Result.pure_eq, Result.ok.injEq,
        Prod.mk.injEq] at h
      obtain ⟨rfl, rfl⟩ := h
      have hsum := hi.sum ▸ wrap64_votedPower_set hi.valSet hval hi.length hs vote
      refine ⟨hi.setVote hc hbA hsum (fun B _ bv hbv hj => ?_), ⟨rfl, rfl, rfl, rfl, rfl⟩, rfl,
        rfl, rfl, by simp [slot_set hlt], fun B _ _ => by simp [slot_set hlt]⟩
      -- a validator without a canonical vote is tallied for no block
      have := hi.covered _ bv i hbv hj
      rw [hs] at this
      cases this
  | some e =>
      rw [hs] at h
      dsimp only at h
      -- a duplicate of the canonical vote is a panic
      split_ifs at h with hdup hkey
      · -- the conflicting vote is for the quorum block: it replaces the canonical one
        rw [update_of_lt hlt, Result.ok_bind, hset, Result.ok_bind, Result.pure_eq,
          Result.ok.injEq, Prod.mk.injEq] at h
        obtain ⟨rfl, rfl⟩ := h
        have hsum : vs.sum = votedPower vs.valSet.validators (vs.votes.set i (some vote)) :=
          hi.sum.trans (votedPower_congr (List.length_set ..).symm fun j => by
            rw [slot_set hlt]
            split_ifs with hij
            · rw [← hij, hs]
              rfl
            · rfl)
        refine ⟨hi.setVote hc hbA hsum (fun B hB _ _ _ => ?_), ⟨rfl, rfl, rfl, rfl, rfl⟩, rfl, rfl,
          rfl, by simp [slot_set hlt], fun B _ _ => by simp [slot_set hlt]⟩
        rw [hB, Option.map_some, Option.some.injEq] at hkey
        exact hkey.symm
      · -- a conflicting vote for another block leaves the canonical votes
        cases h
        refine ⟨hi, Frame.refl vs, rfl, rfl, rfl, by simp [hs], fun B hB hBK => ?_⟩
        rw [hB, Option.map_some, hBK] at hkey
        exact absurd rfl hkey

theorem tallyVote_inv {vs vs' : VoteSet} (hi : Inv cdc crypto P vs) {i : Nat} {vote : Vote}
    (hc : Checked cdc crypto P vs i vote) {val : Validator}
    (hval : vs.valSet.validators[i]? = some val) (hcan : (slot vs.votes i).isSome)
    (hrep : ∀ B, vs.maj23 = some B → B.Key cdc = vote.BlockID.Key cdc →
      slot vs.votes i = some vote)
    {bv : BlockVotes} (ht : TallyInv cdc crypto P vs (vote.BlockID.Key cdc) bv)
    (hcov : ∀ j, (slot bv.votes j).isSome → (slot vs.votes j).isSome)
    (hbv : vs.votesByBlock (vote.BlockID.Key cdc) = some bv ∨
      vs.votesByBlock (vote.BlockID.Key cdc) = none)
    (h : vs.tallyVote bv vote (vote.BlockID.Key cdc) val.votingPower = .ok vs') :
    Inv cdc crypto P vs' ∧ Frame vs vs' ∧ (vs'.maj23 = vs.maj23 ∨ vs.maj23 = none) := by
  obtain ⟨bv', hadd, ht', hle, hnew⟩ := ht.addVerifiedVote hi.valSet hc rfl hval
  have hcov' : ∀ j, (slot bv'.votes j).isSome → (slot vs.votes j).isSome := fun j hj => by
    rcases hnew j hj with rfl | hj
    · exact hcan
    · exact hcov j hj
  -- the quorum block's tally only grows, and a validator new to it voted for it
  have hmaj : ∀ B, vs.maj23 = some B → B.Key cdc = vote.BlockID.Key cdc →
      powerSum vs.valSet.validators * 2 / 3 + 1 ≤ bv'.sum ∧ ∀ j, (slot bv'.votes j).isSome →
        ∃ w, slot vs.votes j = some w ∧ w.BlockID.Key cdc = vote.BlockID.Key cdc := by
    intro B hB hBK
    obtain ⟨-, bv₀, h₀, hq, hcan₀⟩ := hi.maj23 B hB
    rw [hBK] at h₀ hcan₀
    have hbv₀ : bv₀ = bv := by
      rcases hbv with hbv | hbv <;> rw [hbv] at h₀ <;> cases h₀
      rfl
    subst hbv₀
    refine ⟨hq.trans hle, fun j hj => ?_⟩
    rcases hnew j hj with rfl | hj
    · exact ⟨vote, hrep B hB hBK, rfl⟩
    · exact hcan₀ j hj
  have hi₂ := hi.setTally ht' hcov' hmaj
  have hT := hi.valSet.sum_le
  have h0 := powerSum_nonneg fun v hv => (hi.valSet.powers v hv).1
  rw [tallyVote, ValidatorSet.totalVotingPower_of_wellFormed hi.valSet.toWellFormed, Result.ok_bind] at h
  dsimp only at h
  rw [quorum_eq h0 hT, hadd, Result.ok_bind] at h
  split_ifs at h with hq
  · obtain ⟨votes, hcopy, h⟩ := Result.bind_eq_ok.mp h
    cases h
    exact ⟨hi₂.copy hc.pred (Function.update_self ..) hq.2.1 hcopy, ⟨rfl, rfl, rfl, rfl, rfl⟩,
      .inr hq.2.2⟩
  · cases h
    exact ⟨hi₂, ⟨rfl, rfl, rfl, rfl, rfl⟩, .inl rfl⟩

theorem TallyInv.setPeerMaj23 {vs : VoteSet} {K : Bytes} {bv : BlockVotes}
    (ht : TallyInv cdc crypto P vs K bv) (b : Bool) :
    TallyInv cdc crypto P vs K { bv with peerMaj23 := b } :=
  ⟨ht.length, ht.bits, ht.sum, ht.key, ht.checked⟩

variable (cdc crypto P) in
/-- Everything a call on a vote set does to it: the invariant stays, the frame stays, and the
quorum block, once there, stays. -/
def Preserved (vs vs' : VoteSet) : Prop :=
  Inv cdc crypto P vs' ∧ Frame vs vs' ∧ (vs'.maj23 = vs.maj23 ∨ vs.maj23 = none)

theorem Preserved.refl {vs : VoteSet} (hi : Inv cdc crypto P vs) : Preserved cdc crypto P vs vs :=
  ⟨hi, Frame.refl vs, .inl rfl⟩

theorem addVerifiedVote_preserved {vs vs' : VoteSet} (hi : Inv cdc crypto P vs) {i : Nat}
    {vote : Vote} (hc : Checked cdc crypto P vs i vote) {val : Validator}
    (hval : vs.valSet.validators[i]? = some val) {r : Bool × Option Vote}
    (h : vs.addVerifiedVote cdc vote (vote.BlockID.Key cdc) val.votingPower = .ok (r, vs')) :
    Preserved cdc crypto P vs vs' := by
  rw [addVerifiedVote] at h
  obtain ⟨⟨c, vs₁⟩, hrec, h⟩ := Result.bind_eq_ok.mp h
  obtain ⟨hi₁, hf₁, -, hmaj₁, -, hcan, hrep⟩ := recordVote_inv hi hc hval hrec
  have hrep₁ : ∀ B, vs₁.maj23 = some B → B.Key cdc = vote.BlockID.Key cdc →
      slot vs₁.votes i = some vote := hmaj₁ ▸ hrep
  -- the tally runs on the block's tally if it is tracked, or on a fresh one
  have htally : ∀ bv, TallyInv cdc crypto P vs₁ (vote.BlockID.Key cdc) bv →
      (∀ j, (slot bv.votes j).isSome → (slot vs₁.votes j).isSome) →
      (vs₁.votesByBlock (vote.BlockID.Key cdc) = some bv ∨
        vs₁.votesByBlock (vote.BlockID.Key cdc) = none) →
      ∀ vs₂, vs₁.tallyVote bv vote (vote.BlockID.Key cdc) val.votingPower = .ok vs₂ →
        Preserved cdc crypto P vs vs₂ := by
    intro bv ht hcov hbv vs₂ h₂
    obtain ⟨hi₂, hf₂, hm₂⟩ :=
      tallyVote_inv hi₁ (hc.frame hf₁) (hf₁.valSet ▸ hval) hcan hrep₁ ht hcov hbv h₂
    rw [hmaj₁] at hm₂
    exact ⟨hi₂, hf₁.trans hf₂, hm₂⟩
  have hstop : Preserved cdc crypto P vs vs₁ := ⟨hi₁, hf₁, .inl hmaj₁⟩
  dsimp only at h
  split at h
  · rename_i bv hbv
    split_ifs at h
    · cases h
      exact hstop
    · obtain ⟨vs₂, h₂, h⟩ := Result.bind_eq_ok.mp h
      cases h
      exact htally bv (hi₁.tally _ bv hbv) (fun j => hi₁.covered _ bv j hbv) (.inl hbv) _ h₂
  · rename_i hbv
    split_ifs at h
    · cases h
      exact hstop
    · obtain ⟨vs₂, h₂, h⟩ := Result.bind_eq_ok.mp h
      cases h
      exact htally _ (tallyInv_new hi₁.valSet _ false) (by simp [newBlockVotes, slot_replicate])
        (.inr hbv) _ h₂

theorem addVote_preserved {vs vs' : VoteSet} (hi : Inv cdc crypto P vs) {vote? : Option Vote}
    (hp : ∀ v, vote? = some v → P v) {res : Bool × Option VoteError}
    (h : vs.addVote cdc crypto vote? = .ok (res, vs')) : Preserved cdc crypto P vs vs' := by
  unfold addVote at h
  rcases vote? with _ | vote
  · cases h
    exact Preserved.refl hi
  dsimp only at h
  split_ifs at h with hneg hemp hstep
  · cases h
    exact Preserved.refl hi
  · cases h
    exact Preserved.refl hi
  · cases h
    exact Preserved.refl hi
  split at h
  · cases h
    exact Preserved.refl hi
  rename_i addr val hget
  obtain ⟨i, hidx, hlt, rfl, rfl⟩ := ValidatorSet.getByIndex_eq_some hget
  split_ifs at h with haddr
  · cases h
    exact Preserved.refl hi
  obtain ⟨existing?, -, h⟩ := Result.bind_eq_ok.mp h
  split at h
  · split_ifs at h <;> cases h <;> exact Preserved.refl hi
  split at h
  · cases h
    exact Preserved.refl hi
  rename_i hverify
  obtain ⟨⟨⟨added, c⟩, vs₂⟩, hadd, h⟩ := Result.bind_eq_ok.mp h
  simp only [not_or, not_not] at hstep
  obtain ⟨hh, hr, ht⟩ := hstep
  have hc : Checked cdc crypto P vs i vote := ⟨hidx, hh, hr, ht, hlt, hverify, hp vote rfl⟩
  have hpres := addVerifiedVote_preserved hi hc (List.getElem?_eq_getElem hlt) hadd
  dsimp only at h
  split at h
  · cases h
    exact hpres
  · split_ifs at h
    cases h
    exact hpres

theorem setPeerMaj23_preserved {vs : VoteSet} (hi : Inv cdc crypto P vs) (peerID : P2PID)
    (blockID : BlockID) : Preserved cdc crypto P vs (vs.SetPeerMaj23 cdc peerID blockID).2 := by
  unfold SetPeerMaj23
  dsimp only
  split
  · split_ifs <;> exact Preserved.refl hi
  have hi₁ := hi.setPeerMaj23s (Function.update vs.peerMaj23s peerID (some blockID))
  split
  · rename_i bv hbv
    split_ifs
    · exact ⟨hi₁, ⟨rfl, rfl, rfl, rfl, rfl⟩, .inl rfl⟩
    refine ⟨hi₁.setTally ((hi₁.tally _ bv hbv).setPeerMaj23 true)
      (fun j => hi₁.covered _ bv j hbv) (fun B hB hBK => ?_), ⟨rfl, rfl, rfl, rfl, rfl⟩, .inl rfl⟩
    obtain ⟨-, bv₀, h₀, hq, hcan⟩ := hi₁.maj23 B hB
    rw [hBK] at h₀ hcan
    rw [hbv, Option.some.injEq] at h₀
    subst h₀
    exact ⟨hq, hcan⟩
  · rename_i hbv
    refine ⟨hi₁.setTally (tallyInv_new hi₁.valSet _ true) (by simp [newBlockVotes, slot_replicate])
      (fun B hB hBK => ?_), ⟨rfl, rfl, rfl, rfl, rfl⟩, .inl rfl⟩
    obtain ⟨-, bv₀, h₀, -, -⟩ := hi₁.maj23 B hB
    rw [hBK, hbv] at h₀
    cases h₀

/-! ### Runs -/

variable (cdc crypto P)

/-- The calls on a vote set, each one that returned: `AddVote` of nil or of a vote the caller
lets through, and `SetPeerMaj23` of any block. -/
inductive Step : VoteSet → VoteSet → Prop
  | addVote {vs vs' : VoteSet} (vote? : Option Vote) (res : Bool × Option VoteError) :
      (∀ v, vote? = some v → P v) → vs.AddVote cdc crypto vote? = .ok (res, vs') → Step vs vs'
  | setPeerMaj23 (vs : VoteSet) (peerID : P2PID) (blockID : BlockID) :
      Step vs (vs.SetPeerMaj23 cdc peerID blockID).2

/-- A vote set made by `NewVoteSet` over a validator set reachable by its own calls. -/
def Initial (vs : VoteSet) : Prop :=
  vs.valSet.Reachable ∧ NewVoteSet vs.leagueID vs.height vs.round vs.type_ vs.valSet = .ok vs

/-- The vote sets a program holds: made by `NewVoteSet`, then changed by any calls. -/
def Reachable (vs : VoteSet) : Prop := Transition.Reachable Initial (Step cdc crypto P) vs

variable {cdc crypto P}

theorem Step.preserved {vs vs' : VoteSet} (hi : Inv cdc crypto P vs)
    (h : Step cdc crypto P vs vs') : Preserved cdc crypto P vs vs' := by
  cases h with
  | addVote vote? res hp h => exact addVote_preserved hi hp h
  | setPeerMaj23 peerID blockID => exact setPeerMaj23_preserved hi peerID blockID

theorem Reachable.inv {vs : VoteSet} (h : Reachable cdc crypto P vs) : Inv cdc crypto P vs :=
  Transition.Reachable.invariant (fun _ ⟨hv, hnew⟩ => inv_of_newVoteSet hv.inv hnew)
    (fun _ _ _ hi hs => (hs.preserved hi).1) h

theorem Reachable.maj23_stable {vs vs' : VoteSet} (h : Reachable cdc crypto P vs)
    (hs : Relation.ReflTransGen (Step cdc crypto P) vs vs') {B : BlockID}
    (hB : vs.maj23 = some B) : vs'.maj23 = some B := by
  induction hs with
  | refl => exact hB
  | tail hsteps hstep ih =>
      have hr : Reachable cdc crypto P _ := Transition.Reachable.of_reflTransGen h hsteps
      rcases (hstep.preserved hr.inv).2.2 with heq | hnone
      · rw [heq, ih]
      · rw [ih] at hnone
        cases hnone

/-- Two validators of `NewValidatorSet` precommit one block under the amino codec, the second
one first: its vote alone is short of the quorum, the first one's brings it. -/
theorem reachable_precommits {P : Vote → Prop}
    (hP : ∀ v : Vote, v.BlockID = ⟨List.replicate 32 7, ⟨1, List.replicate 32 9⟩⟩ → P v) :
    ∃ vs, Reachable aminoCodec echoCrypto P vs ∧ vs.valSet.validators.length = 2 ∧
      vs.type_ = PrecommitType ∧ vs.sum = 30 ∧
      vs.maj23 = some ⟨List.replicate 32 7, ⟨1, List.replicate 32 9⟩⟩ := by
  let B : BlockID := ⟨List.replicate 32 7, ⟨1, List.replicate 32 9⟩⟩
  let vals : ValidatorSet :=
    ⟨[⟨⟨[1]⟩, [1], 10, 10⟩, ⟨⟨[2]⟩, [2], 20, -10⟩], some (.member ⟨[2]⟩), 30⟩
  let u₀ : Vote := ⟨PrecommitType, 1, 0, B, 0, [1], 0, []⟩
  let u₁ : Vote := ⟨PrecommitType, 1, 0, B, 0, [2], 1, []⟩
  let v₀ : Vote := { u₀ with Signature := [1] ++ u₀.SignBytes aminoCodec "" }
  let v₁ : Vote := { u₁ with Signature := [2] ++ u₁.SignBytes aminoCodec "" }
  let vs₀ : VoteSet :=
    ⟨"", 1, 0, PrecommitType, vals, NewBitArray 2, [none, none], 0, none, fun _ => none, fun _ => none⟩
  -- the validators are given in address order, so the sort inside leaves them as they are
  have hvals : NewValidatorSet [⟨⟨[1]⟩, [1], 10, 0⟩, ⟨⟨[2]⟩, [2], 20, 0⟩] = .ok vals := by
    simp only [NewValidatorSet, ValidatorSet.updateWithChangeSet]
    rw [ValidatorSet.processChanges_of_pairwise]
    · decide +kernel
    · decide
  have h₀ : Reachable aminoCodec echoCrypto P vs₀ := .init ⟨.init ⟨_, by simp, hvals⟩, rfl⟩
  have hrun : (vs₀.AddVote aminoCodec echoCrypto (some v₁) >>= fun p =>
      p.2.AddVote aminoCodec echoCrypto (some v₀) >>= fun q =>
        pure (p.2.maj23, q.2.valSet.validators.length, q.2.type_, q.2.sum, q.2.maj23)) =
      .ok (none, 2, PrecommitType, 30, some B) := by
    decide +kernel
  obtain ⟨p, h₁, hrun⟩ := Result.bind_eq_ok.mp hrun
  obtain ⟨q, h₂, hrun⟩ := Result.bind_eq_ok.mp hrun
  simp only [Result.pure_eq, Result.ok.injEq, Prod.mk.injEq] at hrun
  obtain ⟨-, hlen, htype, hsum, hB⟩ := hrun
  have hr : Reachable aminoCodec echoCrypto P q.2 :=
    .step (.step h₀ (.addVote _ _ (fun v hv => hP v (by rw [← Option.some.inj hv])) h₁))
      (.addVote _ _ (fun v hv => hP v (by rw [← Option.some.inj hv])) h₂)
  exact ⟨q.2, hr, hlen, htype, hsum, hB⟩

/-- Every vote set reachable by any calls keeps its books: the bit array marks exactly the
validators with a canonical vote, the sum is their power, each tracked block's tally is marked,
keyed and summed the same way, every stored vote is a verified vote of the validator at its
index for the set's height, round and type, every validator tallied for a block has a canonical
vote, and the quorum block has two thirds of the power and keeps the quorum along every run. -/
theorem reachable_voteSet_invariant {vs : VoteSet}
    (h : Reachable cdc crypto (fun _ => True) vs) :
    (∀ i < vs.valSet.validators.length,
      BitArray.GetIndex vs.votesBitArray i = .ok (slot vs.votes i).isSome) ∧
    vs.sum = votedPower vs.valSet.validators vs.votes ∧
    vs.valSet.TotalVotingPower = .ok (powerSum vs.valSet.validators, vs.valSet) ∧
    vs.sum ≤ powerSum vs.valSet.validators ∧
    (∀ K bv, vs.votesByBlock K = some bv →
      (∀ i < vs.valSet.validators.length,
        BitArray.GetIndex bv.bitArray i = .ok (slot bv.votes i).isSome) ∧
      (∀ i v, slot bv.votes i = some v → v.BlockID.Key cdc = K) ∧
      bv.sum = votedPower vs.valSet.validators bv.votes) ∧
    (∀ i v, (slot vs.votes i = some v ∨
        ∃ K bv, vs.votesByBlock K = some bv ∧ slot bv.votes i = some v) →
      v.ValidatorIndex = i ∧ v.Height = vs.height ∧ v.Round = vs.round ∧ v.Type_ = vs.type_ ∧
        ∃ hi : i < vs.valSet.validators.length,
          v.Verify cdc crypto vs.leagueID vs.valSet.validators[i].pubKey = none) ∧
    (∀ K bv i, vs.votesByBlock K = some bv → (slot bv.votes i).isSome →
      (slot vs.votes i).isSome) ∧
    ∀ B, vs.maj23 = some B →
      (∃ bv, vs.votesByBlock (B.Key cdc) = some bv ∧
        powerSum vs.valSet.validators * 2 / 3 + 1 ≤ bv.sum) ∧
      ∀ vs', Relation.ReflTransGen (Step cdc crypto fun _ => True) vs vs' →
        vs'.maj23 = some B := by
  have hi := h.inv
  have hpos : ∀ v ∈ vs.valSet.validators, 0 < v.votingPower := fun v hv =>
    (hi.valSet.powers v hv).1
  refine ⟨fun i hlt => hi.bits.getIndex (hi.length ▸ hlt), hi.sum,
    ValidatorSet.totalVotingPower_of_wellFormed hi.valSet.toWellFormed,
    hi.sum ▸ votedPower_le hpos _, fun K bv hbv => ?_, fun i v hv => ?_, hi.covered,
    fun B hB => ?_⟩
  · have ht := hi.tally K bv hbv
    exact ⟨fun i hlt => ht.bits.getIndex (ht.length ▸ hlt), ht.key, ht.sum⟩
  · have hc : Checked cdc crypto (fun _ => True) vs i v := by
      rcases hv with hv | ⟨K, bv, hbv, hv⟩
      · exact hi.checked i v hv
      · exact (hi.tally K bv hbv).checked i v hv
    exact ⟨hc.index, hc.height, hc.round, hc.type_, hc.lt, hc.verify⟩
  · obtain ⟨-, bv, hbv, hq, -⟩ := hi.maj23 B hB
    exact ⟨⟨bv, hbv, hq⟩, fun vs' hs => h.maj23_stable hs hB⟩

theorem reachable_voteSet_invariant_quorum :
    let B : BlockID := ⟨List.replicate 32 7, ⟨1, List.replicate 32 9⟩⟩
    ∃ vs, Reachable aminoCodec echoCrypto (fun _ => True) vs ∧ vs.sum = 30 ∧ vs.maj23 = some B ∧
    (∀ i < vs.valSet.validators.length,
      BitArray.GetIndex vs.votesBitArray i = .ok (slot vs.votes i).isSome) ∧
    vs.sum = votedPower vs.valSet.validators vs.votes ∧
    vs.valSet.TotalVotingPower = .ok (powerSum vs.valSet.validators, vs.valSet) ∧
    vs.sum ≤ powerSum vs.valSet.validators ∧
    (∀ K bv, vs.votesByBlock K = some bv →
      (∀ i < vs.valSet.validators.length,
        BitArray.GetIndex bv.bitArray i = .ok (slot bv.votes i).isSome) ∧
      (∀ i v, slot bv.votes i = some v → v.BlockID.Key aminoCodec = K) ∧
      bv.sum = votedPower vs.valSet.validators bv.votes) ∧
    (∀ i v, (slot vs.votes i = some v ∨
        ∃ K bv, vs.votesByBlock K = some bv ∧ slot bv.votes i = some v) →
      v.ValidatorIndex = i ∧ v.Height = vs.height ∧ v.Round = vs.round ∧ v.Type_ = vs.type_ ∧
        ∃ hi : i < vs.valSet.validators.length,
          v.Verify aminoCodec echoCrypto vs.leagueID vs.valSet.validators[i].pubKey = none) ∧
    (∀ K bv i, vs.votesByBlock K = some bv → (slot bv.votes i).isSome →
      (slot vs.votes i).isSome) ∧
    ∀ B, vs.maj23 = some B →
      (∃ bv, vs.votesByBlock (B.Key aminoCodec) = some bv ∧
        powerSum vs.valSet.validators * 2 / 3 + 1 ≤ bv.sum) ∧
      ∀ vs', Relation.ReflTransGen (Step aminoCodec echoCrypto fun _ => True) vs vs' →
        vs'.maj23 = some B := by
  obtain ⟨vs, hr, -, -, hsum, hB⟩ := reachable_precommits (P := fun _ => True) fun _ _ => trivial
  exact ⟨vs, hr, hsum, hB, reachable_voteSet_invariant hr⟩

end VoteSet

end Dgrid.Types
