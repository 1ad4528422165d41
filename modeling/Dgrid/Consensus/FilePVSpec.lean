import Mathlib.Data.Prod.Lex
import Dgrid.Consensus.FilePV

/-! The signer never signs twice for one height, round and step. Its sign state moves only
forward in the lexicographic order of (height, round, step), and only by a fresh signature; a
request at the last signed position is answered with the stored signature, and then only when
the message is the stored one up to its timestamp; a rejected request changes nothing. -/

namespace Dgrid.Consensus
open Go Dgrid.Types

/-- Height, round and step, ordered lexicographically. -/
abbrev HRS := Lex (Int × Lex (Int × Int))

/-- The position `(height, round, step)` in that order. -/
def hrsOf (height round step : Int) : HRS := toLex (height, toLex (round, step))

theorem hrsOf_lt_iff {h r s h' r' s' : Int} :
    hrsOf h r s < hrsOf h' r' s' ↔ h < h' ∨ h = h' ∧ (r < r' ∨ r = r' ∧ s < s') := by
  simp [hrsOf, Prod.Lex.toLex_lt_toLex]

theorem hrsOf_inj {h r s h' r' s' : Int} :
    hrsOf h r s = hrsOf h' r' s' ↔ h = h' ∧ r = r' ∧ s = s' := by
  simp [hrsOf]

namespace FilePVLastSignState

/-- The position of the last signature. -/
def hrs (lss : FilePVLastSignState) : HRS := hrsOf lss.Height lss.Round lss.Step

theorem checkHRS_cases {lss : FilePVLastSignState} {height round step : Int}
    {r : Except SignError Bool} (h : lss.CheckHRS height round step = .ok r) :
    (r = .ok false ∧ lss.hrs < hrsOf height round step) ∨
      (r = .ok true ∧ lss.hrs = hrsOf height round step ∧ lss.SignBytes.isSome ∧
        lss.Signature.isSome) ∨
      ∃ e, r = .error e := by
  unfold CheckHRS at h
  simp only [hrs, hrsOf_lt_iff, hrsOf_inj]
  cases hS : lss.SignBytes with
  | none =>
      simp only [hS] at h
      split_ifs at h <;> cases h <;> first | exact .inr (.inr ⟨_, rfl⟩) | exact .inl ⟨rfl, by omega⟩
  | some sb =>
      -- at the last position the stored signature is reused, if there is one
      simp only [hS] at h
      split_ifs at h with h₁ h₂ h₃ h₄ h₅ h₆ h₇ <;> cases h <;>
        first
        | exact .inr (.inr ⟨_, rfl⟩)
        | exact .inl ⟨rfl, by omega⟩
        | exact .inr (.inl ⟨rfl, ⟨h₂, h₄, h₆⟩, rfl, Option.isSome_iff_ne_none.mpr (by simpa using h₇)⟩)

end FilePVLastSignState

section SignMsg

variable {f : Bytes → Bytes → Result (Time × Bool)} {sign : Bytes → Except String Bytes}
  {lss lss' : FilePVLastSignState} {height round step : Int} {signBytes : Bytes} {timestamp : Time}
  {res : Except SignError (Time × Bytes)}

/-- What a sign request can do: sign afresh past the last position and record it, hand back the
stored signature at the last position (for the stored bytes, or for bytes the comparison accepts,
with the stored timestamp), or reject and change nothing. -/
theorem signMsg_cases
    (h : signMsg f sign lss height round step signBytes timestamp = .ok (res, lss')) :
    (∃ sig, sign signBytes = .ok sig ∧ lss.hrs < hrsOf height round step ∧
      res = .ok (timestamp, sig) ∧ lss' = lss.saveSigned height round step signBytes sig) ∨
    (lss' = lss ∧ lss.hrs = hrsOf height round step ∧ ∃ sb sig, lss.SignBytes = some sb ∧
      lss.Signature = some sig ∧ ((signBytes = sb ∧ res = .ok (timestamp, sig)) ∨
        ∃ t, f sb signBytes = .ok (t, true) ∧ res = .ok (t, sig))) ∨
    (lss' = lss ∧ ∃ e, res = .error e) := by
  obtain ⟨r, hr, h⟩ := Result.bind_eq_ok.mp h
  rcases FilePVLastSignState.checkHRS_cases hr with ⟨rfl, hlt⟩ | ⟨rfl, heq, hsb, hsig⟩ | ⟨e, rfl⟩
  · -- past the last position: a fresh signature, or the key's error
    dsimp only at h
    split at h
    · cases h
      exact .inr (.inr ⟨rfl, _, rfl⟩)
    · cases h
      exact .inl ⟨_, ‹_›, hlt, rfl, rfl⟩
  · -- the last position: the stored signature or a conflict
    obtain ⟨sb, hsb⟩ := Option.isSome_iff_exists.mp hsb
    obtain ⟨sig, hsig⟩ := Option.isSome_iff_exists.mp hsig
    dsimp only at h
    rw [hsb, hsig, Option.getD_some, Option.getD_some] at h
    split_ifs at h with hbytes
    · cases h
      exact .inr (.inl ⟨rfl, heq, sb, sig, hsb, hsig, .inl ⟨hbytes, rfl⟩⟩)
    obtain ⟨⟨t, ok⟩, hf, h⟩ := Result.bind_eq_ok.mp h
    dsimp only at h
    split_ifs at h with hok
    · cases h
      exact .inr (.inl ⟨rfl, heq, sb, sig, hsb, hsig, .inr ⟨t, by rw [hf, hok], rfl⟩⟩)
    · cases h
      exact .inr (.inr ⟨rfl, _, rfl⟩)
  · cases h
    exact .inr (.inr ⟨rfl, _, rfl⟩)

end SignMsg

theorem SignVote_signMsg {cdc : PVCodec} {now : Time} {sign : Bytes → Except String Bytes}
    {lss lss' : FilePVLastSignState} {chainID : String} {vote : Vote}
    {res : Except FilePVError Vote} (h : SignVote cdc now sign lss chainID vote = .ok (res, lss')) :
    ∃ step r, voteToStep vote = .ok step ∧
      signMsg (checkVotesOnlyDifferByTimestamp cdc now) sign lss vote.Height vote.Round step
        (vote.SignBytes cdc.toCodec chainID) vote.Timestamp = .ok (r, lss') ∧
      res = (r.map fun (t, sig) => { vote with Timestamp := t, Signature := sig }).mapError
        .signingVote := by
  obtain ⟨⟨r, l⟩, hv, h⟩ := Result.bind_eq_ok.mp h
  cases h
  obtain ⟨step, hstep, hv⟩ := Result.bind_eq_ok.mp hv
  obtain ⟨⟨r', l'⟩, hm, hv⟩ := Result.bind_eq_ok.mp hv
  cases hv
  exact ⟨step, r', hstep, hm, rfl⟩

theorem SignProposal_signMsg {cdc : PVCodec} {now : Time} {sign : Bytes → Except String Bytes}
    {lss lss' : FilePVLastSignState} {chainID : String} {proposal : Proposal}
    {res : Except FilePVError Proposal}
    (h : SignProposal cdc now sign lss chainID proposal = .ok (res, lss')) :
    ∃ r, signMsg (checkProposalsOnlyDifferByTimestamp cdc now) sign lss proposal.Height
        proposal.Round stepPropose (Proposal.SignBytes cdc chainID proposal) proposal.Timestamp =
        .ok (r, lss') ∧
      res = (r.map fun (t, sig) => { proposal with Timestamp := t, Signature := sig }).mapError
        .signingProposal := by
  obtain ⟨⟨r, l⟩, hp, h⟩ := Result.bind_eq_ok.mp h
  cases h
  obtain ⟨⟨r', l'⟩, hm, hp⟩ := Result.bind_eq_ok.mp hp
  cases hp
  exact ⟨r', hm, rfl⟩

/-- What the signer relies on of the codec: the binary encodings of canonical votes and
proposals decode back, and the JSON encoding of canonical votes is injective. Bytes that decode
need not be an encoding themselves: amino's varints, for one, are read back from overlong
forms. -/
structure PVCodec.Lawful (cdc : PVCodec) : Prop where
  vote_unmarshal_marshal : ∀ v, cdc.unmarshalCanonicalVote (cdc.marshalCanonicalVote v) = some v
  vote_json_injective : Function.Injective cdc.marshalJSONCanonicalVote
  proposal_unmarshal_marshal : ∀ p,
    cdc.unmarshalCanonicalProposal (cdc.marshalCanonicalProposal p) = some p

/-- The stored sign bytes, if any, are the encoding of a canonical message of the kind the step
says: a proposal at `stepPropose`, a vote at any other step. Every request stores such bytes; a
sign state read back from its file need not hold them. -/
def FilePVLastSignState.Canonical (cdc : PVCodec) (lss : FilePVLastSignState) : Prop :=
  ∀ sb, lss.SignBytes = some sb →
    (lss.Step = stepPropose ∧ ∃ p, sb = cdc.marshalCanonicalProposal p) ∨
      (lss.Step ≠ stepPropose ∧ ∃ v, sb = cdc.marshalCanonicalVote v)

theorem gen_canonical (cdc : PVCodec) : GenFilePV.Canonical cdc := by
  intro sb hsb
  cases hsb

theorem voteToStep_ne_propose {vote : Vote} {step : Int} (h : voteToStep vote = .ok step) :
    step ≠ stepPropose := by
  unfold voteToStep at h
  split_ifs at h <;> cases h <;> decide

theorem FilePVLastSignState.step_of_hrs {lss : FilePVLastSignState} {height round step : Int}
    (h : lss.hrs = hrsOf height round step) : lss.Step = step :=
  (hrsOf_inj.mp h).2.2

section Lawful

variable {cdc : PVCodec} (hc : cdc.Lawful)
include hc

theorem PVCodec.Lawful.proposal_injective : Function.Injective cdc.marshalCanonicalProposal :=
  fun a b h => Option.some.inj (by rw [← hc.proposal_unmarshal_marshal, h, hc.proposal_unmarshal_marshal])

theorem checkVotesOnlyDifferByTimestamp_true {now t : Time} {sb : Bytes} {v : CanonicalVote}
    (h : checkVotesOnlyDifferByTimestamp cdc now sb (cdc.marshalCanonicalVote v) = .ok (t, true)) :
    cdc.unmarshalCanonicalVote sb = some { v with Timestamp := t } := by
  unfold checkVotesOnlyDifferByTimestamp at h
  rw [hc.vote_unmarshal_marshal] at h
  cases hl : cdc.unmarshalCanonicalVote sb with
  | none => simp [hl] at h
  | some last =>
      simp only [hl, Result.ok.injEq, Prod.mk.injEq, decide_eq_true_eq] at h
      obtain ⟨rfl, heq⟩ := h
      -- the JSON of the two, at one timestamp, is the same: so are all their other fields
      have hv := hc.vote_json_injective heq
      cases v
      cases last
      simp only [CanonicalVote.mk.injEq] at hv
      obtain ⟨rfl, rfl, rfl, rfl, -, rfl⟩ := hv
      rfl

theorem checkProposalsOnlyDifferByTimestamp_true {now t : Time} {sb : Bytes}
    {p : CanonicalProposal}
    (h : checkProposalsOnlyDifferByTimestamp cdc now sb (cdc.marshalCanonicalProposal p) =
      .ok (t, true)) :
    cdc.unmarshalCanonicalProposal sb = some { p with Timestamp := t } := by
  unfold checkProposalsOnlyDifferByTimestamp at h
  rw [hc.proposal_unmarshal_marshal] at h
  cases hl : cdc.unmarshalCanonicalProposal sb with
  | none => simp [hl] at h
  | some last =>
      simp only [hl, Result.ok.injEq, Prod.mk.injEq, decide_eq_true_eq] at h
      obtain ⟨rfl, heq⟩ := h
      have hp := hc.proposal_injective heq
      cases p
      cases last
      simp only [CanonicalProposal.mk.injEq] at hp
      obtain ⟨rfl, rfl, rfl, rfl, rfl, -, rfl⟩ := hp
      rfl

theorem FilePVLastSignState.Canonical.vote_bytes {lss : FilePVLastSignState} {sb : Bytes}
    {v : CanonicalVote} (hcan : lss.Canonical cdc) (hsb : lss.SignBytes = some sb)
    (hstep : lss.Step ≠ stepPropose) (h : cdc.unmarshalCanonicalVote sb = some v) :
    sb = cdc.marshalCanonicalVote v := by
  rcases hcan sb hsb with ⟨hs, -⟩ | ⟨-, v₀, rfl⟩
  · exact absurd hs hstep
  · rw [hc.vote_unmarshal_marshal, Option.some.injEq] at h
    rw [h]

theorem FilePVLastSignState.Canonical.proposal_bytes {lss : FilePVLastSignState} {sb : Bytes}
    {p : CanonicalProposal} (hcan : lss.Canonical cdc) (hsb : lss.SignBytes = some sb)
    (hstep : lss.Step = stepPropose) (h : cdc.unmarshalCanonicalProposal sb = some p) :
    sb = cdc.marshalCanonicalProposal p := by
  rcases hcan sb hsb with ⟨-, p₀, rfl⟩ | ⟨hs, -⟩
  · rw [hc.proposal_unmarshal_marshal, Option.some.injEq] at h
    rw [h]
  · exact absurd hstep hs

variable {now : Time} {sign : Bytes → Except String Bytes} {lss lss' : FilePVLastSignState}
  {chainID : String}

/-- A vote request that succeeds either signs afresh, only past the last position, and records
the signature; or, at the last position, hands back the stored signature for the vote as asked up
to its timestamp, the stored sign bytes decoding to that vote (and being its sign bytes when the
sign state is canonical). A request that fails changes nothing. -/
theorem SignVote_spec {vote : Vote} {res : Except FilePVError Vote}
    (h : SignVote cdc now sign lss chainID vote = .ok (res, lss')) :
    ∃ step, voteToStep vote = .ok step ∧
      (∀ vote', res = .ok vote' →
        (lss.hrs < hrsOf vote.Height vote.Round step ∧
          sign (vote.SignBytes cdc.toCodec chainID) = .ok vote'.Signature ∧
          vote' = { vote with Signature := vote'.Signature } ∧
          lss' = lss.saveSigned vote.Height vote.Round step (vote.SignBytes cdc.toCodec chainID)
            vote'.Signature) ∨
        (lss.hrs = hrsOf vote.Height vote.Round step ∧ lss' = lss ∧
          lss.Signature = some vote'.Signature ∧
          vote' = { vote with Timestamp := vote'.Timestamp, Signature := vote'.Signature } ∧
          ∃ sb, lss.SignBytes = some sb ∧
            cdc.unmarshalCanonicalVote sb = some (CanonicalizeVote chainID vote') ∧
            (lss.Canonical cdc → sb = vote'.SignBytes cdc.toCodec chainID))) ∧
      (∀ e, res = .error e → lss' = lss) := by
  obtain ⟨step, r, hstep, hm, rfl⟩ := SignVote_signMsg h
  refine ⟨step, hstep, ?_⟩
  rcases signMsg_cases hm with ⟨sig, hsign, hlt, rfl, rfl⟩ |
    ⟨rfl, heq, sb, sig, hsb, hsig, ⟨hbytes, rfl⟩ | ⟨t, hf, rfl⟩⟩ | ⟨rfl, e, rfl⟩
  · -- a fresh signature
    refine ⟨fun vote' hv => ?_, fun e he => by cases he⟩
    cases hv
    exact .inl ⟨hlt, hsign, rfl, rfl⟩
  · -- the stored signature for the stored bytes
    refine ⟨fun vote' hv => ?_, fun e he => rfl⟩
    cases hv
    refine .inr ⟨heq, rfl, hsig, rfl, sb, hsb, ?_, fun _ => hbytes.symm⟩
    rw [← hbytes]
    exact hc.vote_unmarshal_marshal _
  · -- the stored signature and timestamp for a vote that differs in its timestamp alone
    refine ⟨fun vote' hv => ?_, fun e he => rfl⟩
    cases hv
    have hdec := checkVotesOnlyDifferByTimestamp_true hc hf
    refine .inr ⟨heq, rfl, hsig, rfl, sb, hsb, hdec, fun hcan => ?_⟩
    exact hcan.vote_bytes hc hsb
      ((FilePVLastSignState.step_of_hrs heq).trans_ne (voteToStep_ne_propose hstep)) hdec
  · refine ⟨fun vote' hv => ?_, fun _ _ => rfl⟩
    simp [Except.mapError, Except.map] at hv

theorem SignProposal_spec {proposal : Proposal} {res : Except FilePVError Proposal}
    (h : SignProposal cdc now sign lss chainID proposal = .ok (res, lss')) :
    (∀ proposal', res = .ok proposal' →
        (lss.hrs < hrsOf proposal.Height proposal.Round stepPropose ∧
          sign (Proposal.SignBytes cdc chainID proposal) = .ok proposal'.Signature ∧
          proposal' = { proposal with Signature := proposal'.Signature } ∧
          lss' = lss.saveSigned proposal.Height proposal.Round stepPropose
            (Proposal.SignBytes cdc chainID proposal) proposal'.Signature) ∨
        (lss.hrs = hrsOf proposal.Height proposal.Round stepPropose ∧ lss' = lss ∧
          lss.Signature = some proposal'.Signature ∧
          proposal' =
            { proposal with Timestamp := proposal'.Timestamp, Signature := proposal'.Signature } ∧
          ∃ sb, lss.SignBytes = some sb ∧
            cdc.unmarshalCanonicalProposal sb = some (CanonicalizeProposal chainID proposal') ∧
            (lss.Canonical cdc → sb = Proposal.SignBytes cdc chainID proposal'))) ∧
      (∀ e, res = .error e → lss' = lss) := by
  obtain ⟨r, hm, rfl⟩ := SignProposal_signMsg h
  rcases signMsg_cases hm with ⟨sig, hsign, hlt, rfl, rfl⟩ |
    ⟨rfl, heq, sb, sig, hsb, hsig, ⟨hbytes, rfl⟩ | ⟨t, hf, rfl⟩⟩ | ⟨rfl, e, rfl⟩
  · refine ⟨fun proposal' hp => ?_, fun e he => by cases he⟩
    cases hp
    exact .inl ⟨hlt, hsign, rfl, rfl⟩
  · refine ⟨fun proposal' hp => ?_, fun e he => rfl⟩
    cases hp
    refine .inr ⟨heq, rfl, hsig, rfl, sb, hsb, ?_, fun _ => hbytes.symm⟩
    rw [← hbytes]
    exact hc.proposal_unmarshal_marshal _
  · refine ⟨fun proposal' hp => ?_, fun e he => rfl⟩
    cases hp
    have hdec := checkProposalsOnlyDifferByTimestamp_true hc hf
    exact .inr ⟨heq, rfl, hsig, rfl, sb, hsb, hdec, fun hcan =>
      hcan.proposal_bytes hc hsb (FilePVLastSignState.step_of_hrs heq) hdec⟩
  · refine ⟨fun proposal' hp => ?_, fun _ _ => rfl⟩
    simp [Except.mapError, Except.map] at hp

end Lawful

/-! ### Runs of requests -/

/-- A signing request as consensus makes it, with the clock's reading when it is answered. -/
inductive Request where
  | vote (now : Time) (chainID : String) (vote : Vote)
  | proposal (now : Time) (chainID : String) (proposal : Proposal)

/-- The sign state after the signer answers a request. -/
def Request.next (cdc : PVCodec) (sign : Bytes → Except String Bytes)
    (lss : FilePVLastSignState) : Request → Result FilePVLastSignState
  | .vote now chainID v => do
      let (_, lss) ← SignVote cdc now sign lss chainID v
      pure lss
  | .proposal now chainID p => do
      let (_, lss) ← SignProposal cdc now sign lss chainID p
      pure lss

/-- The sign states after each request of a run, in order. -/
def run (cdc : PVCodec) (sign : Bytes → Except String Bytes) :
    FilePVLastSignState → List Request → Result (List FilePVLastSignState)
  | _, [] => .ok []
  | lss, req :: reqs => do
      let lss ← req.next cdc sign lss
      let rest ← run cdc sign lss reqs
      pure (lss :: rest)

/-- The sign state stays, or moves strictly forward. -/
def Advances (lss lss' : FilePVLastSignState) : Prop := lss' = lss ∨ lss.hrs < lss'.hrs

theorem Advances.trans {a b c : FilePVLastSignState} (hab : Advances a b) (hbc : Advances b c) :
    Advances a c := by
  rcases hab with rfl | hab
  · exact hbc
  rcases hbc with rfl | hbc
  · exact .inr hab
  · exact .inr (hab.trans hbc)

theorem Advances.le_and_eq {a b : FilePVLastSignState} (h : Advances a b) :
    a.hrs ≤ b.hrs ∧ (a.hrs = b.hrs → a = b) := by
  rcases h with rfl | h
  · exact ⟨le_refl _, fun _ => rfl⟩
  · exact ⟨h.le, fun heq => absurd heq h.ne⟩

theorem signMsg_advances {f : Bytes → Bytes → Result (Time × Bool)}
    {sign : Bytes → Except String Bytes} {lss lss' : FilePVLastSignState} {height round step : Int}
    {signBytes : Bytes} {timestamp : Time} {res : Except SignError (Time × Bytes)}
    (h : signMsg f sign lss height round step signBytes timestamp = .ok (res, lss')) :
    Advances lss lss' := by
  rcases signMsg_cases h with ⟨sig, -, hlt, -, rfl⟩ | ⟨rfl, -⟩ | ⟨rfl, -⟩
  · exact .inr hlt
  · exact .inl rfl
  · exact .inl rfl

theorem next_signMsg {cdc : PVCodec} {sign : Bytes → Except String Bytes}
    {lss lss' : FilePVLastSignState} {req : Request} (h : req.next cdc sign lss = .ok lss') :
    ∃ (f : Bytes → Bytes → Result (Time × Bool)) (height round step : Int) (signBytes : Bytes)
      (timestamp : Time) (res : Except SignError (Time × Bytes)),
      signMsg f sign lss height round step signBytes timestamp = .ok (res, lss') := by
  cases req with
  | vote now chainID v =>
      obtain ⟨⟨res, l⟩, hv, h⟩ := Result.bind_eq_ok.mp h
      cases h
      obtain ⟨_, _, -, hm, -⟩ := SignVote_signMsg hv
      exact ⟨_, _, _, _, _, _, _, hm⟩
  | proposal now chainID p =>
      obtain ⟨⟨res, l⟩, hp, h⟩ := Result.bind_eq_ok.mp h
      cases h
      obtain ⟨_, hm, -⟩ := SignProposal_signMsg hp
      exact ⟨_, _, _, _, _, _, _, hm⟩

theorem next_advances {cdc : PVCodec} {sign : Bytes → Except String Bytes}
    {lss lss' : FilePVLastSignState} {req : Request} (h : req.next cdc sign lss = .ok lss') :
    Advances lss lss' := by
  obtain ⟨_, _, _, _, _, _, _, hm⟩ := next_signMsg h
  exact signMsg_advances hm

theorem run_invariant {cdc : PVCodec} {sign : Bytes → Except String Bytes}
    {P : FilePVLastSignState → Prop}
    (hstep : ∀ lss lss' (req : Request), P lss → req.next cdc sign lss = .ok lss' → P lss') :
    ∀ {lss₀ : FilePVLastSignState} {reqs : List Request} {states : List FilePVLastSignState},
      P lss₀ → run cdc sign lss₀ reqs = .ok states → ∀ lss ∈ states, P lss
  | _, [], _, _, h => by
      cases h
      exact fun _ h => absurd h List.not_mem_nil
  | _, req :: reqs, _, hp, h => by
      obtain ⟨lss₁, h₁, h⟩ := Result.bind_eq_ok.mp h
      obtain ⟨rest, hrest, h⟩ := Result.bind_eq_ok.mp h
      cases h
      have hp₁ := hstep _ _ _ hp h₁
      intro lss hmem
      rcases List.mem_cons.mp hmem with rfl | hmem
      · exact hp₁
      · exact run_invariant hstep hp₁ hrest lss hmem

theorem next_canonical {cdc : PVCodec} {sign : Bytes → Except String Bytes}
    {lss lss' : FilePVLastSignState} {req : Request} (hcan : lss.Canonical cdc)
    (h : req.next cdc sign lss = .ok lss') : lss'.Canonical cdc := by
  cases req with
  | vote now chainID v =>
      obtain ⟨⟨res, l⟩, hv, h⟩ := Result.bind_eq_ok.mp h
      cases h
      obtain ⟨step, r, hstep, hm, -⟩ := SignVote_signMsg hv
      rcases signMsg_cases hm with ⟨sig, -, -, -, rfl⟩ | ⟨rfl, -⟩ | ⟨rfl, -⟩
      · rintro sb ⟨⟩
        exact .inr ⟨voteToStep_ne_propose hstep, _, rfl⟩
      · exact hcan
      · exact hcan
  | proposal now chainID p =>
      obtain ⟨⟨res, l⟩, hp, h⟩ := Result.bind_eq_ok.mp h
      cases h
      obtain ⟨r, hm, -⟩ := SignProposal_signMsg hp
      rcases signMsg_cases hm with ⟨sig, -, -, -, rfl⟩ | ⟨rfl, -⟩ | ⟨rfl, -⟩
      · rintro sb ⟨⟩
        exact .inl ⟨rfl, _, rfl⟩
      · exact hcan
      · exact hcan

theorem run_pairwise {cdc : PVCodec} {sign : Bytes → Except String Bytes} :
    ∀ {lss₀ : FilePVLastSignState} {reqs : List Request} {states : List FilePVLastSignState},
      run cdc sign lss₀ reqs = .ok states → (lss₀ :: states).Pairwise Advances
  | _, [], _, h => by
      cases h
      exact List.pairwise_singleton _ _
  | lss₀, req :: reqs, states, h => by
      obtain ⟨lss₁, h₁, h⟩ := Result.bind_eq_ok.mp h
      obtain ⟨rest, hrest, h⟩ := Result.bind_eq_ok.mp h
      cases h
      have ih := run_pairwise hrest
      have h01 := next_advances h₁
      refine List.pairwise_cons.mpr ⟨fun s hs => ?_, ih⟩
      rcases List.mem_cons.mp hs with rfl | hs
      · exact h01
      · exact h01.trans (List.rel_of_pairwise_cons ih hs)

/-- The signer's guarantees. A vote or proposal request that succeeds either carries a fresh
signature of the key, only past the last signed position, and records it; or, at that position,
the stored signature, for the stored message up to its timestamp. A request that fails changes
nothing. Along any run the sign state never moves back, so each position is recorded with one
sign bytes at most, and from a canonical sign state the stored sign bytes stay the encoding of the
message they were signed for. -/
structure NoDoubleSign (cdc : PVCodec) (sign : Bytes → Except String Bytes) : Prop where
  vote : ∀ (now : Time) (lss : FilePVLastSignState) (chainID : String) (vote : Vote)
    (res : Except FilePVError Vote) (lss' : FilePVLastSignState),
    SignVote cdc now sign lss chainID vote = .ok (res, lss') →
    ∃ step, voteToStep vote = .ok step ∧
      (∀ vote', res = .ok vote' →
        (lss.hrs < hrsOf vote.Height vote.Round step ∧
          sign (vote.SignBytes cdc.toCodec chainID) = .ok vote'.Signature ∧
          vote' = { vote with Signature := vote'.Signature } ∧
          lss' = lss.saveSigned vote.Height vote.Round step (vote.SignBytes cdc.toCodec chainID)
            vote'.Signature) ∨
        (lss.hrs = hrsOf vote.Height vote.Round step ∧ lss' = lss ∧
          lss.Signature = some vote'.Signature ∧
          vote' = { vote with Timestamp := vote'.Timestamp, Signature := vote'.Signature } ∧
          ∃ sb, lss.SignBytes = some sb ∧
            cdc.unmarshalCanonicalVote sb = some (CanonicalizeVote chainID vote') ∧
            (lss.Canonical cdc → sb = vote'.SignBytes cdc.toCodec chainID))) ∧
      (∀ e, res = .error e → lss' = lss)
  proposal : ∀ (now : Time) (lss : FilePVLastSignState) (chainID : String) (proposal : Proposal)
    (res : Except FilePVError Proposal) (lss' : FilePVLastSignState),
    SignProposal cdc now sign lss chainID proposal = .ok (res, lss') →
    (∀ proposal', res = .ok proposal' →
        (lss.hrs < hrsOf proposal.Height proposal.Round stepPropose ∧
          sign (Proposal.SignBytes cdc chainID proposal) = .ok proposal'.Signature ∧
          proposal' = { proposal with Signature := proposal'.Signature } ∧
          lss' = lss.saveSigned proposal.Height proposal.Round stepPropose
            (Proposal.SignBytes cdc chainID proposal) proposal'.Signature) ∨
        (lss.hrs = hrsOf proposal.Height proposal.Round stepPropose ∧ lss' = lss ∧
          lss.Signature = some proposal'.Signature ∧
          proposal' =
            { proposal with Timestamp := proposal'.Timestamp, Signature := proposal'.Signature } ∧
          ∃ sb, lss.SignBytes = some sb ∧
            cdc.unmarshalCanonicalProposal sb = some (CanonicalizeProposal chainID proposal') ∧
            (lss.Canonical cdc → sb = Proposal.SignBytes cdc chainID proposal'))) ∧
      (∀ e, res = .error e → lss' = lss)
  canonical : ∀ (lss₀ : FilePVLastSignState) (reqs : List Request)
    (states : List FilePVLastSignState), lss₀.Canonical cdc → run cdc sign lss₀ reqs = .ok states →
    ∀ lss ∈ states, lss.Canonical cdc
  run : ∀ (lss₀ : FilePVLastSignState) (reqs : List Request) (states : List FilePVLastSignState),
    run cdc sign lss₀ reqs = .ok states →
    (lss₀ :: states).Pairwise fun s s' => s.hrs ≤ s'.hrs ∧ (s.hrs = s'.hrs → s = s')

theorem filePV_no_double_sign {cdc : PVCodec} (hc : cdc.Lawful)
    (sign : Bytes → Except String Bytes) : NoDoubleSign cdc sign where
  vote _ _ _ _ _ _ h := SignVote_spec hc h
  proposal _ _ _ _ _ _ h := SignProposal_spec hc h
  canonical _ _ _ hcan h := run_invariant (fun _ _ _ hcan' hn => next_canonical hcan' hn) hcan h
  run _ _ _ h := (run_pairwise h).imp Advances.le_and_eq

/-! ### A codec that meets the laws

Canonical messages are countable, so each one can be written as the unary form of its number in
some numbering, and read back as the message with that encoding. -/

/-- The fields of a canonical vote, as numbers. -/
def voteFields (v : CanonicalVote) : ℕ × ℤ × ℤ × List ℕ × List ℕ × ℤ × ℤ × List ℕ :=
  (v.Type_.byte.toNat, v.Height, v.Round, v.BlockID.Hash.map UInt8.toNat,
    v.BlockID.PartsHeader.Hash.map UInt8.toNat, v.BlockID.PartsHeader.Total, v.Timestamp,
    v.LeagueID.toList.map Char.toNat)

/-- The fields of a canonical proposal, as numbers. -/
def proposalFields (p : CanonicalProposal) :
    ℕ × ℤ × ℤ × ℤ × List ℕ × List ℕ × ℤ × ℤ × List ℕ :=
  (p.Type_.byte.toNat, p.Height, p.Round, p.POLRound, p.BlockID.Hash.map UInt8.toNat,
    p.BlockID.PartsHeader.Hash.map UInt8.toNat, p.BlockID.PartsHeader.Total, p.Timestamp,
    p.LeagueID.toList.map Char.toNat)

theorem map_toNat_injective : Function.Injective (List.map UInt8.toNat) :=
  List.map_injective_iff.mpr fun _ _ h => UInt8.toNat_inj.mp h

theorem leagueID_injective : Function.Injective fun s : String => s.toList.map Char.toNat :=
  fun _ _ h => String.toList_inj.mp
    (List.map_injective_iff.mpr (fun _ _ h => Char.toNat_inj.mp h) h)

theorem voteFields_injective : Function.Injective voteFields := by
  rintro ⟨⟨t⟩, h, r, ⟨bh, ⟨ph, pt⟩⟩, ts, l⟩ ⟨⟨t'⟩, h', r', ⟨bh', ⟨ph', pt'⟩⟩, ts', l'⟩ heq
  simp only [voteFields, Prod.mk.injEq] at heq
  obtain ⟨ht, rfl, rfl, hbh, hph, rfl, rfl, hl⟩ := heq
  rw [UInt8.toNat_inj.mp ht, map_toNat_injective hbh, map_toNat_injective hph,
    leagueID_injective hl]

theorem proposalFields_injective : Function.Injective proposalFields := by
  rintro ⟨⟨t⟩, h, r, pr, ⟨bh, ⟨ph, pt⟩⟩, ts, l⟩ ⟨⟨t'⟩, h', r', pr', ⟨bh', ⟨ph', pt'⟩⟩, ts', l'⟩
    heq
  simp only [proposalFields, Prod.mk.injEq] at heq
  obtain ⟨ht, rfl, rfl, rfl, hbh, hph, rfl, rfl, hl⟩ := heq
  rw [UInt8.toNat_inj.mp ht, map_toNat_injective hbh, map_toNat_injective hph,
    leagueID_injective hl]

instance : Countable CanonicalVote := voteFields_injective.countable

instance : Countable CanonicalProposal := proposalFields_injective.countable

/-- A numbering of a countable type. -/
noncomputable def natCode (α : Type) [Countable α] : α → ℕ :=
  (Countable.exists_injective_nat α).choose

theorem natCode_injective (α : Type) [Countable α] : Function.Injective (natCode α) :=
  (Countable.exists_injective_nat α).choose_spec

/-- The unary form of a value's number. -/
noncomputable def unaryOf (α : Type) [Countable α] (a : α) : Bytes :=
  List.replicate (natCode α a) 0

theorem unaryOf_injective (α : Type) [Countable α] : Function.Injective (unaryOf α) :=
  fun _ _ h => natCode_injective α (by simpa [unaryOf] using congrArg List.length h)

open Classical in
/-- Reading bytes back through an encoding: the message that encodes to them, if any. -/
noncomputable def decodeBy {β : Type} (enc : β → Bytes) (b : Bytes) : Option β :=
  if h : ∃ x, enc x = b then some h.choose else none

theorem decodeBy_enc {β : Type} {enc : β → Bytes} (hinj : Function.Injective enc) (x : β) :
    decodeBy enc (enc x) = some x := by
  have h : ∃ y, enc y = enc x := ⟨x, rfl⟩
  rw [decodeBy, dif_pos h, hinj h.choose_spec]

/-- The unary codec, for canonical votes and proposals. -/
noncomputable def unaryPVCodec : PVCodec where
  marshalPartSetHeader _ := []
  marshalCanonicalVote := unaryOf CanonicalVote
  unmarshalCanonicalVote := decodeBy (unaryOf CanonicalVote)
  marshalJSONCanonicalVote := unaryOf CanonicalVote
  marshalCanonicalProposal := unaryOf CanonicalProposal
  unmarshalCanonicalProposal := decodeBy (unaryOf CanonicalProposal)

theorem unaryPVCodec_lawful : unaryPVCodec.Lawful where
  vote_unmarshal_marshal := decodeBy_enc (unaryOf_injective CanonicalVote)
  vote_json_injective := unaryOf_injective CanonicalVote
  proposal_unmarshal_marshal := decodeBy_enc (unaryOf_injective CanonicalProposal)

/-- The unary codec, with a key that signs by echoing the bytes. -/
theorem filePV_no_double_sign_unary :
    unaryPVCodec.Lawful ∧ NoDoubleSign unaryPVCodec fun b => .ok b :=
  ⟨unaryPVCodec_lawful, filePV_no_double_sign unaryPVCodec_lawful fun b => .ok b⟩

end Dgrid.Consensus
