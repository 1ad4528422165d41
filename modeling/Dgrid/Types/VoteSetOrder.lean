import Dgrid.Types.CommitSpec
import Dgrid.Types.Amino

/-! The order in which `AddVote` receives the votes of one height, round and type. Without two
votes of one validator, the canonical votes, the sum and each block's tally come out the same in
every order, and so does the quorum block: at most one block key reaches two thirds, since the
tallies of two keys hold disjoint validators, and a key names one block id when the codec is
injective and block ids are zero or complete, as `Vote.ValidateBasic` requires. A key alone does
not name a block id otherwise, and the first vote to cross the quorum then decides which one. -/

namespace Dgrid.Types
open Go Dgrid.Common

/-! ### Vote lists compared slot by slot -/

theorem slot_ext {a b : List (Option Vote)} (hlen : a.length = b.length)
    (h : ∀ j, slot a j = slot b j) : a = b := by
  apply List.ext_getElem hlen
  intro j ha hb
  rw [← slot_eq_getElem ha, ← slot_eq_getElem hb]
  exact h j

theorem slot_set_some_iff {votes : List (Option Vote)} {i j : Nat} {x v : Vote}
    (hi : i < votes.length) (hs : slot votes i = none) :
    slot (votes.set i (some x)) j = some v ↔ j = i ∧ v = x ∨ slot votes j = some v := by
  rw [slot_set hi]
  by_cases hij : i = j
  · subst hij
    simp [hs, eq_comm]
  · simp [hij, Ne.symm hij]

theorem copyVotes_of_agree {src votes : List (Option Vote)} (hlen : src.length ≤ votes.length)
    (h : ∀ j v, slot src j = some v → slot votes j = some v) : copyVotes 0 votes src = .ok votes := by
  obtain ⟨votes', hcopy, hlen', hslot⟩ := copyVotes_spec src votes 0 (by omega)
  rw [hcopy, slot_ext hlen' fun j => ?_]
  rw [hslot, if_pos (Nat.zero_le j), Nat.sub_zero]
  cases hs : slot src j with
  | none => rfl
  | some v => rw [Option.some_or, h j v hs]

theorem votedPower_add_le_of_disjoint {L : List Validator} (hpos : ∀ v ∈ L, 0 < v.votingPower)
    {a b : List (Option Vote)} (h : ∀ j, (slot a j).isSome → (slot b j).isSome → False) :
    votedPower L a + votedPower L b ≤ powerSum L := by
  induction L generalizing a b with
  | nil => simp
  | cons w L ih =>
      have hw := hpos w List.mem_cons_self
      have hpos' : ∀ v ∈ L, 0 < v.votingPower := fun v hv => hpos v (List.mem_cons_of_mem w hv)
      rcases a with _ | ⟨x, a⟩
      · simpa using votedPower_le hpos b
      rcases b with _ | ⟨y, b⟩
      · simpa using votedPower_le hpos (x :: a)
      -- past the first position the rest is disjoint, and the first is in one list at most
      have hrest := ih hpos' (a := a) (b := b) fun j => h (j + 1)
      have h0 := h 0
      cases x <;> cases y <;> simp only [votedPower_cons_some, votedPower_cons_none, powerSum_cons, slot_cons_zero,
        Option.isSome_some, Option.isSome_none] at h0 ⊢
      · omega
      · omega
      · omega
      · exact (h0 trivial trivial).elim

namespace VoteSet

variable (cdc : Codec) (crypto : Crypto)

/-- Adding `votes` one after the other with `AddVote`, each call on the set the last returned. -/
def addVotes (vs : VoteSet) : List Vote → Result VoteSet
  | [] => .ok vs
  | vote :: votes => do
      let (_, vs) ← vs.AddVote cdc crypto (some vote)
      addVotes vs votes

/-- The checks of `addVote` that read only the vote and what no call changes: a vote of the
validator at its index, under that validator's address, for the set's height, round and type,
that verifies under the validator's key. -/
def Accepts (vs : VoteSet) (vote : Vote) : Prop :=
  ∃ (i : Nat) (val : Validator), vote.ValidatorIndex = i ∧ vs.valSet.validators[i]? = some val ∧
    vote.ValidatorAddress ≠ [] ∧ vote.ValidatorAddress = val.address.bytes ∧
    vote.Height = vs.height ∧ vote.Round = vs.round ∧ vote.Type_ = vs.type_ ∧
    vote.Verify cdc crypto vs.leagueID val.pubKey = none

/-- A block's tally as the callers see it: its votes and their sum. -/
def tallyOf (vs : VoteSet) (K : Bytes) : Option (List (Option Vote) × Int) :=
  (vs.votesByBlock K).map fun bv => (bv.votes, bv.sum)

/-- The vote set after the votes of `S` were added, described by `S` alone: the canonical votes
are those of `S`, a block is tracked when a vote of `S` is for it and its tally holds those
votes, and the quorum block is a block of `S` whose tally has two thirds of the power. -/
structure Canon (S : Set Vote) (vs : VoteSet) : Prop where
  inv : Inv cdc crypto ValidBlockID vs
  mem : ∀ v, v ∈ S ↔ ∃ j, slot vs.votes j = some v
  tracked : ∀ K, (vs.votesByBlock K).isSome ↔ ∃ v ∈ S, v.BlockID.Key cdc = K
  tally : ∀ K bv, vs.votesByBlock K = some bv → ∀ j v,
    slot bv.votes j = some v ↔ slot vs.votes j = some v ∧ v.BlockID.Key cdc = K
  maj23 : ∀ B, vs.maj23 = some B ↔ (∃ v ∈ S, v.BlockID = B) ∧
    ∃ bv, vs.votesByBlock (B.Key cdc) = some bv ∧
      powerSum vs.valSet.validators * 2 / 3 + 1 ≤ bv.sum

variable {cdc crypto}

theorem Accepts.frame {vs vs' : VoteSet} (hf : Frame vs vs') {vote : Vote} :
    Accepts cdc crypto vs' vote ↔ Accepts cdc crypto vs vote := by
  simp only [Accepts, hf.leagueID, hf.height, hf.round, hf.type_, hf.valSet]

theorem quorum_key_unique {P : Vote → Prop} {vs : VoteSet} (hi : Inv cdc crypto P vs)
    (htally : ∀ K bv, vs.votesByBlock K = some bv → ∀ j v, slot bv.votes j = some v →
      slot vs.votes j = some v ∧ v.BlockID.Key cdc = K)
    {K K' : Bytes} {bv bv' : BlockVotes} (hK : vs.votesByBlock K = some bv)
    (hK' : vs.votesByBlock K' = some bv')
    (hq : powerSum vs.valSet.validators * 2 / 3 + 1 ≤ bv.sum)
    (hq' : powerSum vs.valSet.validators * 2 / 3 + 1 ≤ bv'.sum) : K = K' := by
  by_contra hne
  have hpos : ∀ v ∈ vs.valSet.validators, 0 < v.votingPower := fun v hv =>
    (hi.valSet.powers v hv).1
  have hdis : ∀ j, (slot bv.votes j).isSome → (slot bv'.votes j).isSome → False := by
    intro j hj hj'
    obtain ⟨v, hv⟩ := Option.isSome_iff_exists.mp hj
    obtain ⟨v', hv'⟩ := Option.isSome_iff_exists.mp hj'
    obtain ⟨hs, hk⟩ := htally K bv hK j v hv
    obtain ⟨hs', hk'⟩ := htally K' bv' hK' j v' hv'
    rw [hs, Option.some.injEq] at hs'
    subst hs'
    exact hne (hk.symm.trans hk')
  have hle := votedPower_add_le_of_disjoint hpos hdis
  rw [← (hi.tally K bv hK).sum, ← (hi.tally K' bv' hK').sum] at hle
  have h0 := powerSum_nonneg hpos
  omega

namespace Canon

variable {S : Set Vote} {vs : VoteSet}

theorem slot_iff (hc : Canon cdc crypto S vs) {j : Nat} {v : Vote} :
    slot vs.votes j = some v ↔ v ∈ S ∧ v.ValidatorIndex = j := by
  constructor
  · intro h
    exact ⟨(hc.mem v).mpr ⟨j, h⟩, (hc.inv.checked j v h).index⟩
  · rintro ⟨hv, hj⟩
    obtain ⟨j', h'⟩ := (hc.mem v).mp hv
    have hj' := (hc.inv.checked j' v h').index
    obtain rfl : j' = j := by omega
    exact h'

theorem valid (hc : Canon cdc crypto S vs) {v : Vote} (hv : v ∈ S) : ValidBlockID v := by
  obtain ⟨j, h⟩ := (hc.mem v).mp hv
  exact (hc.inv.checked j v h).pred

theorem congr {S' : Set Vote} (hc : Canon cdc crypto S vs) (h : ∀ v, v ∈ S ↔ v ∈ S') :
    Canon cdc crypto S' vs := by
  obtain rfl : S = S' := Set.ext h
  exact hc

theorem slot_fresh (hc : Canon cdc crypto S vs) {i : Nat}
    (hfresh : ∀ w ∈ S, w.ValidatorIndex ≠ i) : slot vs.votes i = none := by
  cases h : slot vs.votes i with
  | none => rfl
  | some v =>
      obtain ⟨hv, hi⟩ := hc.slot_iff.mp h
      exact absurd hi (hfresh v hv)

theorem tally_fresh (hc : Canon cdc crypto S vs) {i : Nat}
    (hfresh : ∀ w ∈ S, w.ValidatorIndex ≠ i) {K : Bytes} {bv : BlockVotes}
    (hbv : vs.votesByBlock K = some bv) : slot bv.votes i = none := by
  cases h : slot bv.votes i with
  | none => rfl
  | some v =>
      have hs := ((hc.tally K bv hbv i v).mp h).1
      rw [hc.slot_fresh hfresh] at hs
      cases hs

theorem agree {vs' : VoteSet} (hc : Canon cdc crypto S vs) (hc' : Canon cdc crypto S vs')
    (hv : vs.valSet = vs'.valSet) :
    vs.votes = vs'.votes ∧ vs.sum = vs'.sum ∧ (∀ K, vs.tallyOf K = vs'.tallyOf K) ∧
      vs.maj23 = vs'.maj23 := by
  have hslot : ∀ j, slot vs.votes j = slot vs'.votes j := fun j =>
    Option.ext fun v => hc.slot_iff.trans hc'.slot_iff.symm
  have hvotes : vs.votes = vs'.votes :=
    slot_ext (by rw [hc.inv.length, hc'.inv.length, hv]) hslot
  have htally : ∀ K, vs.tallyOf K = vs'.tallyOf K := by
    intro K
    have htr := (hc.tracked K).trans (hc'.tracked K).symm
    cases h : vs.votesByBlock K with
    | none =>
        cases h' : vs'.votesByBlock K with
        | none => simp [tallyOf, h, h']
        | some bv' => simp [h, h'] at htr
    | some bv =>
        cases h' : vs'.votesByBlock K with
        | none => simp [h, h'] at htr
        | some bv' =>
            -- the same votes of key `K`, so the same sum
            have hbv : bv.votes = bv'.votes := by
              refine slot_ext ?_ fun j => Option.ext fun v => ?_
              · rw [(hc.inv.tally K bv h).length, (hc'.inv.tally K bv' h').length, hv]
              · rw [hc.tally K bv h, hc'.tally K bv' h', hslot]
            have hsum : bv.sum = bv'.sum := by
              rw [(hc.inv.tally K bv h).sum, (hc'.inv.tally K bv' h').sum, hbv, hv]
            simp [tallyOf, h, h', hbv, hsum]
  refine ⟨hvotes, by rw [hc.inv.sum, hc'.inv.sum, hvotes, hv], htally, ?_⟩
  -- the quorum block is read off the tallies
  have hq : ∀ K, (∃ bv, vs.votesByBlock K = some bv ∧
        powerSum vs.valSet.validators * 2 / 3 + 1 ≤ bv.sum) ↔
      ∃ bv, vs'.votesByBlock K = some bv ∧ powerSum vs'.valSet.validators * 2 / 3 + 1 ≤ bv.sum := by
    intro K
    have hK := htally K
    simp only [tallyOf] at hK
    cases h : vs.votesByBlock K <;> cases h' : vs'.votesByBlock K <;> simp_all
  exact Option.ext fun B => (hc.maj23 B).trans ((and_congr_right' (hq _)).trans (hc'.maj23 B).symm)

end Canon

theorem canon_newVoteSet {leagueID : String} {height round : Int} {type_ : SignedMsgType}
    {valSet : ValidatorSet} {vs : VoteSet} (hv : valSet.Inv)
    (h : NewVoteSet leagueID height round type_ valSet = .ok vs) : Canon cdc crypto ∅ vs := by
  have hi : Inv cdc crypto ValidBlockID vs := inv_of_newVoteSet hv h
  unfold NewVoteSet at h
  split_ifs at h
  cases h
  exact ⟨hi, by simp [slot_replicate], by simp, by simp, by simp⟩

/-! ### A vote of a validator not heard from -/

section Fresh

variable {P : Vote → Prop} {vs : VoteSet} {vote : Vote} {i : Nat}

theorem getVote_fresh (hi : Inv cdc crypto P vs) (hlt : i < vs.valSet.validators.length)
    (hs : slot vs.votes i = none) {K : Bytes}
    (hK : ∀ bv, vs.votesByBlock K = some bv → slot bv.votes i = none) :
    vs.getVote cdc i K = .ok none := by
  have hlt' : i < vs.votes.length := hi.length ▸ hlt
  rw [getVote, index_of_lt hlt', Result.ok_bind, ← slot_eq_getElem hlt', hs]
  dsimp only
  cases hbv : vs.votesByBlock K with
  | none => rfl
  | some bv =>
      have hlen : i < bv.votes.length := (hi.tally K bv hbv).length ▸ hlt
      rw [BlockVotes.getByIndex, index_of_lt hlen, ← slot_eq_getElem hlen, hK bv hbv]

theorem recordVote_of_none (hi : Inv cdc crypto P vs) (hidx : vote.ValidatorIndex = i)
    (hlt : i < vs.valSet.validators.length) (hs : slot vs.votes i = none) (K : Bytes) (p : Int) :
    ∃ bA, vs.recordVote cdc vote K p = .ok (none,
      { vs with votes := vs.votes.set i (some vote), votesBitArray := bA,
                sum := wrap64 (vs.sum + p) }) := by
  have hlt' : i < vs.votes.length := hi.length ▸ hlt
  obtain ⟨bA, hset, -⟩ := hi.bits.setIndex hlt' vote
  refine ⟨bA, ?_⟩
  rw [recordVote, hidx, index_of_lt hlt', Result.ok_bind, ← slot_eq_getElem hlt', hs]
  dsimp only
  rw [update_of_lt hlt', Result.ok_bind, hset, Result.ok_bind]
  rfl

/-- The tally of a first vote for a block whose tallied votes are canonical ones: the vote is
counted, the copy of the quorum's votes changes nothing, and the block becomes the quorum block
when its tally crosses two thirds and there is none yet. -/
theorem tallyVote_of_none (hi : Inv cdc crypto P vs) {K : Bytes} {bv : BlockVotes}
    (ht : TallyInv cdc crypto P vs K bv) (hc : Checked cdc crypto P vs i vote)
    (hK : vote.BlockID.Key cdc = K) (hs : slot bv.votes i = none)
    (hcan : ∀ j v, slot bv.votes j = some v → slot vs.votes j = some v)
    (hself : slot vs.votes i = some vote) {val : Validator}
    (hval : vs.valSet.validators[i]? = some val) :
    ∃ bv', bv'.votes = bv.votes.set i (some vote) ∧ bv.sum ≤ bv'.sum ∧
      vs.tallyVote bv vote K val.votingPower = .ok
        { vs with votesByBlock := Function.update vs.votesByBlock K (some bv'),
                  maj23 := if bv.sum < powerSum vs.valSet.validators * 2 / 3 + 1 ∧
                      powerSum vs.valSet.validators * 2 / 3 + 1 ≤ bv'.sum ∧ vs.maj23 = none
                    then some vote.BlockID else vs.maj23 } := by
  obtain ⟨bv', hadd, ht', hle, -⟩ := ht.addVerifiedVote hi.valSet hc hK hval
  obtain ⟨bA, hadd', -⟩ := BlockVotes.addVerifiedVote_of_none hc.index (ht.length ▸ hc.lt) ht.bits hs
    val.votingPower
  rw [hadd', Result.ok.injEq] at hadd
  subst hadd
  refine ⟨_, rfl, hle, ?_⟩
  -- the block's votes are canonical ones, and the new one is the canonical vote at `i`
  have hcopy : copyVotes 0 vs.votes (bv.votes.set i (some vote)) = .ok vs.votes := by
    refine copyVotes_of_agree (by rw [List.length_set, ht.length, hi.length]) fun j v h => ?_
    rw [slot_set (ht.length ▸ hc.lt)] at h
    split_ifs at h with hij
    · cases h
      exact hij ▸ hself
    · exact hcan j v h
  have hT := hi.valSet.sum_le
  have h0 := powerSum_nonneg fun v hv => (hi.valSet.powers v hv).1
  rw [tallyVote, ValidatorSet.totalVotingPower_of_wellFormed hi.valSet.toWellFormed,
    Result.ok_bind]
  dsimp only
  rw [quorum_eq h0 hT, hadd', Result.ok_bind]
  split_ifs with hq
  · rw [hcopy, Result.ok_bind]
    rfl
  · rfl

theorem addVerifiedVote_of_tally {vs₁ vs₂ : VoteSet} {K : Bytes} {p : Int} {bv : BlockVotes}
    (hrec : vs.recordVote cdc vote K p = .ok (none, vs₁))
    (hbv : vs₁.votesByBlock K = some bv ∨
      vs₁.votesByBlock K = none ∧ bv = newBlockVotes false vs₁.valSet.Size)
    (htv : vs₁.tallyVote bv vote K p = .ok vs₂) :
    vs.addVerifiedVote cdc vote K p = .ok ((true, none), vs₂) := by
  rw [addVerifiedVote, hrec, Result.ok_bind]
  dsimp only
  rcases hbv with hbv | ⟨hbv, rfl⟩
  · rw [hbv]
    dsimp only
    rw [if_neg (by simp), htv, Result.ok_bind]
    rfl
  · rw [hbv]
    dsimp only
    rw [if_neg (by simp), htv, Result.ok_bind]
    rfl

theorem addVote_of_not_accepts (hi : Inv cdc crypto P vs)
    (hfresh : ∀ i : Nat, vote.ValidatorIndex = i → slot vs.votes i = none ∧
      ∀ K bv, vs.votesByBlock K = some bv → slot bv.votes i = none)
    (hn : ¬ Accepts cdc crypto vs vote) :
    ∃ e, vs.addVote cdc crypto (some vote) = .ok ((false, some e), vs) := by
  unfold addVote
  dsimp only
  split_ifs with hneg hemp hstep
  · exact ⟨_, rfl⟩
  · exact ⟨_, rfl⟩
  · exact ⟨_, rfl⟩
  cases hget : vs.valSet.GetByIndex vote.ValidatorIndex with
  | none => exact ⟨_, rfl⟩
  | some p =>
      obtain ⟨addr, val⟩ := p
      obtain ⟨i, hidx, hlt, rfl, rfl⟩ := ValidatorSet.getByIndex_eq_some hget
      dsimp only
      split_ifs with haddr
      · exact ⟨_, rfl⟩
      obtain ⟨hs, hK⟩ := hfresh i hidx
      rw [hidx, getVote_fresh hi hlt hs (hK _), Result.ok_bind]
      dsimp only
      cases hver : vote.Verify cdc crypto vs.leagueID vs.valSet.validators[i].pubKey with
      | some err => exact ⟨_, rfl⟩
      | none =>
          -- every check passed: the vote is one `Accepts` lets through
          simp only [not_or, not_not] at hstep
          refine absurd ⟨i, _, hidx, List.getElem?_eq_getElem hlt, ?_, not_not.mp haddr, hstep.1,
            hstep.2.1, hstep.2.2, hver⟩ hn
          simpa using hemp

variable (cdc crypto) in
/-- The set `vs'` after a first vote of validator `i` was recorded as its canonical vote and
counted in its block's tally, which went from `bv` (the tracked one, or a fresh one) to `bv'`:
the block becomes the quorum block when the tally crosses two thirds and there is none yet. -/
structure Tallied (vs : VoteSet) (vote : Vote) (i : Nat) (bv bv' : BlockVotes) (vs' : VoteSet) :
    Prop where
  index : vote.ValidatorIndex = i
  lt : i < vs.valSet.validators.length
  prior : vs.votesByBlock (vote.BlockID.Key cdc) = some bv ∨
    vs.votesByBlock (vote.BlockID.Key cdc) = none ∧
      bv.votes = List.replicate vs.votes.length none ∧ bv.sum = 0
  tally : bv'.votes = bv.votes.set i (some vote)
  grows : bv.sum ≤ bv'.sum
  votes : vs'.votes = vs.votes.set i (some vote)
  votesByBlock : vs'.votesByBlock = Function.update vs.votesByBlock (vote.BlockID.Key cdc) (some bv')
  maj23 : vs'.maj23 = if bv.sum < powerSum vs.valSet.validators * 2 / 3 + 1 ∧
      powerSum vs.valSet.validators * 2 / 3 + 1 ≤ bv'.sum ∧ vs.maj23 = none
    then some vote.BlockID else vs.maj23
  frame : Frame vs vs'
  inv : Inv cdc crypto ValidBlockID vs'

theorem addVote_of_accepts {S : Set Vote} (hc : Canon cdc crypto S vs)
    (hfresh : ∀ w ∈ S, w.ValidatorIndex ≠ vote.ValidatorIndex) (hvalid : ValidBlockID vote)
    (hacc : Accepts cdc crypto vs vote) :
    ∃ (i : Nat) (bv bv' : BlockVotes) (vs' : VoteSet),
      vs.addVote cdc crypto (some vote) = .ok ((true, none), vs') ∧
      Tallied cdc crypto vs vote i bv bv' vs' := by
  obtain ⟨i, val, hidx, hval, hne, haddr, hh, hr, ht, hver⟩ := hacc
  have hi := hc.inv
  obtain ⟨hlt, rfl⟩ := List.getElem?_eq_some_iff.mp hval
  have hfresh' : ∀ w ∈ S, w.ValidatorIndex ≠ i := fun w hw => hidx ▸ hfresh w hw
  have hs := hc.slot_fresh hfresh'
  have hck : Checked cdc crypto ValidBlockID vs i vote := ⟨hidx, hh, hr, ht, hlt, hver, hvalid⟩
  -- the canonical half records the vote
  obtain ⟨bA, hrec⟩ := recordVote_of_none hi hidx hlt hs (vote.BlockID.Key cdc)
    vs.valSet.validators[i].votingPower
  obtain ⟨hi₁, hf₁, hb₁, hm₁, -⟩ := recordVote_inv hi hck hval hrec
  generalize hvs₁ : ({ vs with votes := vs.votes.set i (some vote), votesBitArray := bA,
                               sum := wrap64 (vs.sum + vs.valSet.validators[i].votingPower) } :
    VoteSet) = vs₁ at hrec hi₁ hf₁ hb₁ hm₁
  have hvotes₁ : vs₁.votes = vs.votes.set i (some vote) := by rw [← hvs₁]
  have hlt' : i < vs.votes.length := hi.length ▸ hlt
  have hself : slot vs₁.votes i = some vote := by simp [hvotes₁, slot_set hlt']
  -- the checks pass and find no earlier vote, so `addVote` hands the vote to `addVerifiedVote`
  have hpre : ∀ r, vs.addVerifiedVote cdc vote (vote.BlockID.Key cdc)
      vs.valSet.validators[i].votingPower = .ok ((true, none), r) →
      vs.addVote cdc crypto (some vote) = .ok ((true, none), r) := by
    intro r hadd
    unfold addVote
    dsimp only
    rw [if_neg (by omega), if_neg (by simpa using hne), if_neg (by simp [hh, hr, ht]), hidx,
      ValidatorSet.getByIndex_of_lt hlt]
    dsimp only
    rw [if_neg (fun h => h haddr),
      getVote_fresh hi hlt hs (fun bv h => hc.tally_fresh hfresh' h), Result.ok_bind]
    dsimp only
    rw [hver]
    dsimp only
    rw [hadd, Result.ok_bind]
    rfl
  -- the tally half, on the block's tally or on a fresh one, whose votes are canonical ones
  have htally : ∀ bv, TallyInv cdc crypto ValidBlockID vs₁ (vote.BlockID.Key cdc) bv →
      slot bv.votes i = none → (∀ j v, slot bv.votes j = some v → slot vs.votes j = some v) →
      (vs.votesByBlock (vote.BlockID.Key cdc) = some bv ∨
        vs.votesByBlock (vote.BlockID.Key cdc) = none ∧
          bv = newBlockVotes false vs₁.valSet.Size) →
      ∃ bv' vs', bv'.votes = bv.votes.set i (some vote) ∧ bv.sum ≤ bv'.sum ∧
        vs.addVote cdc crypto (some vote) = .ok ((true, none), vs') ∧
        vs'.votes = vs.votes.set i (some vote) ∧
        vs'.votesByBlock = Function.update vs.votesByBlock (vote.BlockID.Key cdc) (some bv') ∧
        vs'.maj23 = (if bv.sum < powerSum vs.valSet.validators * 2 / 3 + 1 ∧
            powerSum vs.valSet.validators * 2 / 3 + 1 ≤ bv'.sum ∧ vs.maj23 = none
          then some vote.BlockID else vs.maj23) ∧ Frame vs vs' := by
    intro bv ht hsb hcan hbv
    have hcan₁ : ∀ j v, slot bv.votes j = some v → slot vs₁.votes j = some v := by
      intro j v h
      have hj := hcan j v h
      have hji : j ≠ i := by
        rintro rfl
        rw [hs] at hj
        cases hj
      simp [hvotes₁, slot_set hlt', Ne.symm hji, hj]
    obtain ⟨bv', hvotes', hle, htv⟩ :=
      tallyVote_of_none hi₁ ht (hck.frame hf₁) rfl hsb hcan₁ hself (by rw [hf₁.valSet]; exact hval)
    refine ⟨bv', _, hvotes', hle, hpre _ (addVerifiedVote_of_tally hrec (hb₁ ▸ hbv) htv), hvotes₁,
      by dsimp only; rw [hb₁], by dsimp only; rw [hf₁.valSet, hm₁],
      hf₁.trans ⟨rfl, rfl, rfl, rfl, rfl⟩⟩
  have hinv : ∀ vs', vs.addVote cdc crypto (some vote) = .ok ((true, none), vs') →
      Inv cdc crypto ValidBlockID vs' := fun vs' hadd =>
    (addVote_preserved hi (fun v h => by cases h; exact hvalid) hadd).1
  cases hbv : vs.votesByBlock (vote.BlockID.Key cdc) with
  | some bv =>
      have ht : TallyInv cdc crypto ValidBlockID vs₁ (vote.BlockID.Key cdc) bv :=
        hi₁.tally _ bv (by rw [hb₁]; exact hbv)
      obtain ⟨bv', vs', hvotes', hle, hadd, hv', hb', hm', hf'⟩ := htally bv ht
        (hc.tally_fresh hfresh' hbv) (fun j v h => ((hc.tally _ bv hbv j v).mp h).1) (.inl hbv)
      exact ⟨i, bv, bv', vs', hadd,
        ⟨hidx, hlt, .inl hbv, hvotes', hle, hv', hb', hm', hf', hinv vs' hadd⟩⟩
  | none =>
      -- a block not tracked yet gets a fresh tally, with no vote
      have ht : TallyInv cdc crypto ValidBlockID vs₁ (vote.BlockID.Key cdc)
          (newBlockVotes false vs₁.valSet.Size) := tallyInv_new hi₁.valSet _ false
      obtain ⟨bv', vs', hvotes', hle, hadd, hv', hb', hm', hf'⟩ := htally _ ht
        (by simp [newBlockVotes, slot_replicate]) (by simp [newBlockVotes, slot_replicate])
        (.inr ⟨hbv, rfl⟩)
      refine ⟨i, _, bv', vs', hadd,
        ⟨hidx, hlt, .inr ⟨hbv, ?_, rfl⟩, hvotes', hle, hv', hb', hm', hf', hinv vs' hadd⟩⟩
      rw [newBlockVotes, hf₁.valSet, hi.length]
      rfl

end Fresh

namespace Tallied

variable {S : Set Vote} {vs vs' : VoteSet} {vote : Vote} {i : Nat} {bv bv' : BlockVotes}

theorem prior_slot (ht : Tallied cdc crypto vs vote i bv bv' vs') (hc : Canon cdc crypto S vs)
    (j : Nat) (v : Vote) :
    slot bv.votes j = some v ↔
      slot vs.votes j = some v ∧ v.BlockID.Key cdc = vote.BlockID.Key cdc := by
  rcases ht.prior with hbv | ⟨hbv, hvotes, -⟩
  · exact hc.tally _ bv hbv j v
  · -- a block that is not tracked has no vote of `S`
    rw [hvotes, slot_replicate]
    constructor
    · intro h
      cases h
    · rintro ⟨hj, hk⟩
      have htr := (hc.tracked _).mpr ⟨v, (hc.mem v).mpr ⟨j, hj⟩, hk⟩
      rw [hbv] at htr
      cases htr

theorem prior_length (ht : Tallied cdc crypto vs vote i bv bv' vs') (hc : Canon cdc crypto S vs) :
    bv.votes.length = vs.votes.length := by
  rcases ht.prior with hbv | ⟨-, hvotes, -⟩
  · rw [(hc.inv.tally _ bv hbv).length, hc.inv.length]
  · rw [hvotes, List.length_replicate]

theorem slot_iff (ht : Tallied cdc crypto vs vote i bv bv' vs') (hc : Canon cdc crypto S vs)
    (hs : slot vs.votes i = none) (j : Nat) (v : Vote) :
    slot vs'.votes j = some v ↔ j = i ∧ v = vote ∨ slot vs.votes j = some v := by
  rw [ht.votes, slot_set_some_iff (hc.inv.length ▸ ht.lt) hs]

theorem tally_iff (ht : Tallied cdc crypto vs vote i bv bv' vs') (hc : Canon cdc crypto S vs)
    (hs : slot vs.votes i = none) (K : Bytes) (bvK : BlockVotes)
    (hK : vs'.votesByBlock K = some bvK) (j : Nat) (v : Vote) :
    slot bvK.votes j = some v ↔ slot vs'.votes j = some v ∧ v.BlockID.Key cdc = K := by
  have hlt : i < vs.votes.length := hc.inv.length ▸ ht.lt
  rw [ht.slot_iff hc hs]
  rw [ht.votesByBlock] at hK
  by_cases hKv : K = vote.BlockID.Key cdc
  · -- the vote's block: the old tally and the vote
    subst hKv
    rw [Function.update_self, Option.some.injEq] at hK
    subst hK
    have hsb : slot bv.votes i = none := by
      cases h : slot bv.votes i with
      | none => rfl
      | some w =>
          have hw := ((ht.prior_slot hc i w).mp h).1
          rw [hs] at hw
          cases hw
    rw [ht.tally, slot_set_some_iff (ht.prior_length hc ▸ hlt) hsb, ht.prior_slot hc]
    constructor
    · rintro (⟨rfl, rfl⟩ | ⟨hj, hk⟩)
      · exact ⟨.inl ⟨rfl, rfl⟩, rfl⟩
      · exact ⟨.inr hj, hk⟩
    · rintro ⟨⟨rfl, rfl⟩ | hj, hk⟩
      · exact .inl ⟨rfl, rfl⟩
      · exact .inr ⟨hj, hk⟩
  · -- another block: its tally and its canonical votes stay, and the vote is not for it
    rw [Function.update_of_ne hKv] at hK
    rw [hc.tally K bvK hK]
    constructor
    · rintro ⟨hj, hk⟩
      exact ⟨.inr hj, hk⟩
    · rintro ⟨⟨rfl, rfl⟩ | hj, hk⟩
      · exact absurd hk.symm hKv
      · exact ⟨hj, hk⟩

/-- The quorum block after: the block that just crossed two thirds, if there was none, else the
one before. No other block can have two thirds, so either way it is the block of `S` and the
vote with two thirds, and a key names one block. -/
theorem maj23_iff (hcodec : BlockID.KeyCodec cdc) (ht : Tallied cdc crypto vs vote i bv bv' vs')
    (hc : Canon cdc crypto S vs) (hs : slot vs.votes i = none) (hvalid : ValidBlockID vote)
    (B : BlockID) :
    vs'.maj23 = some B ↔ (∃ v ∈ insert vote S, v.BlockID = B) ∧
      ∃ bvB, vs'.votesByBlock (B.Key cdc) = some bvB ∧
        powerSum vs'.valSet.validators * 2 / 3 + 1 ≤ bvB.sum := by
  have h0 := powerSum_nonneg fun v hv => (hc.inv.valSet.powers v hv).1
  have hvalS : ∀ v ∈ insert vote S, ValidBlockID v := by
    intro v hv
    rcases Set.mem_insert_iff.mp hv with rfl | hv
    · exact hvalid
    · exact hc.valid hv
  -- votes of `S` and the vote with the vote's key are for the vote's block
  have hkey : ∀ v ∈ insert vote S, v.BlockID.Key cdc = vote.BlockID.Key cdc →
      v.BlockID = vote.BlockID := fun v hv hk =>
    BlockID.key_injective hcodec (hvalS v hv) hvalid hk
  have hself : vs'.votesByBlock (vote.BlockID.Key cdc) = some bv' := by
    rw [ht.votesByBlock, Function.update_self]
  have hother : ∀ K, K ≠ vote.BlockID.Key cdc → vs'.votesByBlock K = vs.votesByBlock K :=
    fun K hK => by rw [ht.votesByBlock, Function.update_of_ne hK]
  have htally' : ∀ K bvK, vs'.votesByBlock K = some bvK → ∀ j v, slot bvK.votes j = some v →
      slot vs'.votes j = some v ∧ v.BlockID.Key cdc = K := fun K bvK hK j v h =>
    (ht.tally_iff hc hs K bvK hK j v).mp h
  rw [ht.maj23, ht.frame.valSet]
  constructor
  · intro h
    split_ifs at h with hcross
    · -- the vote's block just crossed two thirds
      cases h
      exact ⟨⟨vote, Set.mem_insert _ _, rfl⟩, bv', hself, hcross.2.1⟩
    · -- the quorum block before keeps a tally that only grows
      obtain ⟨⟨v, hv, rfl⟩, bvo, hbo, hq⟩ := (hc.maj23 _).mp h
      refine ⟨⟨v, Set.mem_insert_of_mem _ hv, rfl⟩, ?_⟩
      by_cases hK : v.BlockID.Key cdc = vote.BlockID.Key cdc
      · rcases ht.prior with hbv | ⟨hbv, -, -⟩ <;> rw [hK, hbv] at hbo <;> cases hbo
        exact ⟨bv', by rw [hK, hself], hq.trans ht.grows⟩
      · exact ⟨bvo, by rw [hother _ hK]; exact hbo, hq⟩
  · rintro ⟨⟨v, hv, rfl⟩, bvB, hbB, hq⟩
    by_cases hK : v.BlockID.Key cdc = vote.BlockID.Key cdc
    · rw [hK, hself, Option.some.injEq] at hbB
      subst hbB
      rw [hkey v hv hK]
      split_ifs with hcross
      · rfl
      -- the vote's tally did not cross now: it had two thirds before, or another block had
      by_cases hge : powerSum vs.valSet.validators * 2 / 3 + 1 ≤ bv.sum
      · have hbv : vs.votesByBlock (vote.BlockID.Key cdc) = some bv := by
          rcases ht.prior with hbv | ⟨-, -, hsum⟩
          · exact hbv
          · omega
        obtain ⟨w, hw, hwK⟩ := (hc.tracked _).mp (by rw [hbv]; rfl)
        exact (hc.maj23 _).mpr
          ⟨⟨w, hw, hkey w (Set.mem_insert_of_mem _ hw) hwK⟩, bv, hbv, hge⟩
      · obtain ⟨B₀, hB₀⟩ : ∃ B₀, vs.maj23 = some B₀ := by
          cases h : vs.maj23 with
          | none => exact absurd ⟨by omega, hq, h⟩ hcross
          | some B₀ => exact ⟨B₀, rfl⟩
        obtain ⟨⟨w, hw, rfl⟩, bvo, hbo, hqo⟩ := (hc.maj23 _).mp hB₀
        -- two keys with two thirds after the vote would share a validator
        have hwK : w.BlockID.Key cdc = vote.BlockID.Key cdc := by
          by_contra hne
          refine hne (quorum_key_unique ht.inv htally'
            (?_ : vs'.votesByBlock (w.BlockID.Key cdc) = some bvo) hself ?_ ?_)
          · rw [hother _ hne]
            exact hbo
          · rw [ht.frame.valSet]
            exact hqo
          · rw [ht.frame.valSet]
            exact hq
        rw [hB₀, hkey w (Set.mem_insert_of_mem _ hw) hwK]
    · -- another block: its tally and the quorum block before stay
      have hvS : v ∈ S := by
        rcases Set.mem_insert_iff.mp hv with rfl | hv
        · exact absurd rfl hK
        · exact hv
      rw [hother _ hK] at hbB
      have hold := (hc.maj23 _).mpr ⟨⟨v, hvS, rfl⟩, bvB, hbB, hq⟩
      split_ifs with hcross
      · rw [hcross.2.2] at hold
        cases hold
      · exact hold

end Tallied

/-! ### Adding votes in any order -/

namespace Canon

variable {S : Set Vote} {vs : VoteSet} {vote : Vote}

theorem tallied (hcodec : BlockID.KeyCodec cdc) (hc : Canon cdc crypto S vs)
    (hfresh : ∀ w ∈ S, w.ValidatorIndex ≠ vote.ValidatorIndex) (hvalid : ValidBlockID vote)
    {i : Nat} {bv bv' : BlockVotes} {vs' : VoteSet} (ht : Tallied cdc crypto vs vote i bv bv' vs') :
    Canon cdc crypto (insert vote S) vs' := by
  have hs : slot vs.votes i = none := hc.slot_fresh fun w hw => ht.index ▸ hfresh w hw
  refine ⟨ht.inv, fun v => ?_, fun K => ?_, ht.tally_iff hc hs, ht.maj23_iff hcodec hc hs hvalid⟩
  · rw [Set.mem_insert_iff, hc.mem v]
    simp only [ht.slot_iff hc hs]
    constructor
    · rintro (rfl | ⟨j, hj⟩)
      · exact ⟨i, .inl ⟨rfl, rfl⟩⟩
      · exact ⟨j, .inr hj⟩
    · rintro ⟨j, ⟨-, rfl⟩ | hj⟩
      · exact .inl rfl
      · exact .inr ⟨j, hj⟩
  · rw [ht.votesByBlock]
    by_cases hK : K = vote.BlockID.Key cdc
    · subst hK
      simp only [Function.update_self, Option.isSome_some, true_iff]
      exact ⟨vote, Set.mem_insert _ _, rfl⟩
    · rw [Function.update_of_ne hK, hc.tracked K]
      constructor
      · rintro ⟨v, hv, hk⟩
        exact ⟨v, Set.mem_insert_of_mem _ hv, hk⟩
      · rintro ⟨v, hv, hk⟩
        rcases Set.mem_insert_iff.mp hv with rfl | hv
        · exact absurd hk.symm hK
        · exact ⟨v, hv, hk⟩

theorem addVote (hcodec : BlockID.KeyCodec cdc) (hc : Canon cdc crypto S vs)
    (hfresh : ∀ w ∈ S, w.ValidatorIndex ≠ vote.ValidatorIndex) (hvalid : ValidBlockID vote) :
    ∃ r vs', vs.AddVote cdc crypto (some vote) = .ok (r, vs') ∧ Frame vs vs' ∧
      Canon cdc crypto {w | w ∈ S ∨ w = vote ∧ Accepts cdc crypto vs vote} vs' := by
  by_cases hacc : Accepts cdc crypto vs vote
  · obtain ⟨i, bv, bv', vs', hadd, ht⟩ := addVote_of_accepts hc hfresh hvalid hacc
    refine ⟨_, vs', hadd, ht.frame, (hc.tallied hcodec hfresh hvalid ht).congr fun v => ?_⟩
    simp [hacc, or_comm]
  · obtain ⟨e, hadd⟩ := addVote_of_not_accepts hc.inv (fun i hi =>
      ⟨hc.slot_fresh fun w hw => hi ▸ hfresh w hw,
        fun K bv hbv => hc.tally_fresh (fun w hw => hi ▸ hfresh w hw) hbv⟩) hacc
    refine ⟨_, vs, hadd, Frame.refl vs, hc.congr fun v => ?_⟩
    simp [hacc]

theorem addVotes (hcodec : BlockID.KeyCodec cdc) :
    ∀ {S : Set Vote} {vs : VoteSet} (votes : List Vote), Canon cdc crypto S vs →
      (∀ v ∈ votes, ValidBlockID v) → (votes.map Vote.ValidatorIndex).Nodup →
      (∀ w ∈ S, ∀ v ∈ votes, w.ValidatorIndex ≠ v.ValidatorIndex) →
      ∃ vs', VoteSet.addVotes cdc crypto vs votes = .ok vs' ∧ Frame vs vs' ∧
        Canon cdc crypto {w | w ∈ S ∨ w ∈ votes ∧ Accepts cdc crypto vs w} vs'
  | _, vs, [], hc, _, _, _ => ⟨vs, rfl, Frame.refl vs, hc.congr fun w => by simp⟩
  | S, vs, v :: votes, hc, hvalid, hnodup, hfresh => by
      rw [List.map_cons, List.nodup_cons] at hnodup
      obtain ⟨r, vs₁, hadd, hf₁, hc₁⟩ := hc.addVote hcodec (fun w hw => hfresh w hw v
        List.mem_cons_self) (hvalid v List.mem_cons_self)
      -- the votes after `v` are of other validators than those added so far
      have hfresh₁ : ∀ w ∈ {w | w ∈ S ∨ w = v ∧ Accepts cdc crypto vs v}, ∀ u ∈ votes,
          w.ValidatorIndex ≠ u.ValidatorIndex := by
        rintro w (hw | ⟨rfl, -⟩) u hu
        · exact hfresh w hw u (List.mem_cons_of_mem _ hu)
        · rintro heq
          exact hnodup.1 (heq ▸ List.mem_map_of_mem hu)
      obtain ⟨vs₂, hrun, hf₂, hc₂⟩ := addVotes hcodec votes hc₁
        (fun u hu => hvalid u (List.mem_cons_of_mem _ hu)) hnodup.2 hfresh₁
      refine ⟨vs₂, ?_, hf₁.trans hf₂, hc₂.congr fun w => ?_⟩
      · rw [VoteSet.addVotes, hadd, Result.ok_bind]
        exact hrun
      · simp only [Set.mem_ofPred_eq, List.mem_cons, Accepts.frame hf₁]
        constructor
        · rintro ((hw | ⟨rfl, ha⟩) | ⟨hw, ha⟩)
          · exact .inl hw
          · exact .inr ⟨.inl rfl, ha⟩
          · exact .inr ⟨.inr hw, ha⟩
        · rintro (hw | ⟨rfl | hw, ha⟩)
          · exact .inl (.inl hw)
          · exact .inl (.inr ⟨rfl, ha⟩)
          · exact .inr ⟨hw, ha⟩

end Canon

/-- Without two votes of one validator, over a validator set in use, a codec that keeps
part-set headers apart and votes for nil or complete block ids, `AddVote` of the votes in any two
orders gives the same canonical votes, sum, tallies and quorum block. -/
theorem addVotes_order_independent (hcodec : BlockID.KeyCodec cdc) {leagueID : String}
    {height round : Int} {type_ : SignedMsgType} {valSet : ValidatorSet} {vs₀ : VoteSet}
    (hv : valSet.Inv) (h : NewVoteSet leagueID height round type_ valSet = .ok vs₀)
    {votes votes' : List Vote} (hperm : votes.Perm votes') (hvalid : ∀ v ∈ votes, ValidBlockID v)
    (hnodup : (votes.map Vote.ValidatorIndex).Nodup) :
    ∃ vs vs', addVotes cdc crypto vs₀ votes = .ok vs ∧ addVotes cdc crypto vs₀ votes' = .ok vs' ∧
      vs.votes = vs'.votes ∧ vs.sum = vs'.sum ∧ (∀ K, vs.tallyOf K = vs'.tallyOf K) ∧
      vs.TwoThirdsMajority = vs'.TwoThirdsMajority := by
  have hc₀ : Canon cdc crypto ∅ vs₀ := canon_newVoteSet hv h
  obtain ⟨vs, hrun, hf, hc⟩ := hc₀.addVotes hcodec votes hvalid hnodup (by simp)
  obtain ⟨vs', hrun', hf', hc'⟩ := hc₀.addVotes hcodec votes'
    (fun v hv => hvalid v (hperm.mem_iff.mpr hv)) ((hperm.map _).nodup_iff.mp hnodup) (by simp)
  -- both runs add the votes of the list that pass the checks
  have hc'' : Canon cdc crypto {w | w ∈ (∅ : Set Vote) ∨ w ∈ votes ∧ Accepts cdc crypto vs₀ w}
      vs' := hc'.congr fun w => by simp [hperm.mem_iff]
  exact ⟨vs, vs', hrun, hrun', hc.agree hc'' (hf.valSet.trans hf'.valSet.symm)⟩

theorem addVotes_order_independent_swap :
    let B : BlockID := ⟨List.replicate 32 7, ⟨1, List.replicate 32 9⟩⟩
    let vals : ValidatorSet := ⟨[⟨⟨[1]⟩, [1], 1, 0⟩, ⟨⟨[2]⟩, [2], 1, 0⟩], none, 2⟩
    let vs₀ : VoteSet := ⟨"", 1, 0, PrecommitType, vals, NewBitArray 2, [none, none], 0, none,
      fun _ => none, fun _ => none⟩
    let u₀ : Vote := ⟨PrecommitType, 1, 0, B, 0, [1], 0, []⟩
    let u₁ : Vote := ⟨PrecommitType, 1, 0, B, 0, [2], 1, []⟩
    let v₀ : Vote := { u₀ with Signature := [1] ++ u₀.SignBytes aminoCodec "" }
    let v₁ : Vote := { u₁ with Signature := [2] ++ u₁.SignBytes aminoCodec "" }
    vals.Inv ∧ NewVoteSet "" 1 0 PrecommitType vals = .ok vs₀ ∧
      ∃ vs vs', addVotes aminoCodec echoCrypto vs₀ [v₀, v₁] = .ok vs ∧
        addVotes aminoCodec echoCrypto vs₀ [v₁, v₀] = .ok vs' ∧ vs.votes = vs'.votes ∧
        vs.sum = vs'.sum ∧ (∀ K, vs.tallyOf K = vs'.tallyOf K) ∧
        vs.TwoThirdsMajority = vs'.TwoThirdsMajority := by
  intro B vals vs₀ u₀ u₁ v₀ v₁
  have hv : vals.Inv :=
    ⟨⟨List.pairwise_pair.mpr (Address.lt_iff.mpr (by decide)), by decide, rfl⟩, by simp, by decide⟩
  have hvalid : ∀ v ∈ [v₀, v₁], ValidBlockID v := by
    simp only [List.mem_cons, List.not_mem_nil, or_false, forall_eq_or_imp, forall_eq]
    exact ⟨.inr (by decide), .inr (by decide)⟩
  have hnew : NewVoteSet "" 1 0 PrecommitType vals = .ok vs₀ := rfl
  exact ⟨hv, hnew, addVotes_order_independent aminoCodec_keyCodec hv hnew (List.Perm.swap _ _ _)
    hvalid (by decide)⟩

/-- Under the amino codec, two block ids whose keys collide: the key is the hash followed by the
header's encoding, and the header of `A` ends with the bytes that encode the header of `B`, which
`B`'s longer hash then supplies. Two validators of power one sign a precommit each, one for each
block id; the block id of whichever vote comes second becomes the quorum block. -/
theorem addVotes_order_decides_maj23 :
    let A : BlockID := ⟨[7], ⟨1, [8, 2]⟩⟩
    let B : BlockID := ⟨[7, 8, 2, 0x12, 2], ⟨1, []⟩⟩
    let vals : ValidatorSet := ⟨[⟨⟨[1]⟩, [1], 1, 0⟩, ⟨⟨[2]⟩, [2], 1, 0⟩], none, 2⟩
    let u₀ : Vote := ⟨PrecommitType, 1, 0, A, 0, [1], 0, []⟩
    let u₁ : Vote := ⟨PrecommitType, 1, 0, B, 0, [2], 1, []⟩
    let v₀ : Vote := { u₀ with Signature := [1] ++ u₀.SignBytes aminoCodec "" }
    let v₁ : Vote := { u₁ with Signature := [2] ++ u₁.SignBytes aminoCodec "" }
    vals.Inv ∧ A.Key aminoCodec = B.Key aminoCodec ∧
      ((NewVoteSet "" 1 0 PrecommitType vals >>= fun vs =>
          addVotes aminoCodec echoCrypto vs [v₀, v₁]) >>= fun vs =>
        pure (vs.votes, vs.TwoThirdsMajority)) = .ok ([some v₀, some v₁], some B) ∧
      ((NewVoteSet "" 1 0 PrecommitType vals >>= fun vs =>
          addVotes aminoCodec echoCrypto vs [v₁, v₀]) >>= fun vs =>
        pure (vs.votes, vs.TwoThirdsMajority)) = .ok ([some v₀, some v₁], some A) :=
  ⟨⟨⟨List.pairwise_pair.mpr (Address.lt_iff.mpr (by decide)), by decide, rfl⟩, by simp, by decide⟩,
    by decide +kernel, by decide +kernel, by decide +kernel⟩

end VoteSet

end Dgrid.Types
