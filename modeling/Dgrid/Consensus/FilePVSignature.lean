import Dgrid.Consensus.FilePVSpec

/-! The signatures the file-based signer hands out verify. A fresh one does because the key signs
correctly. A reused one does because the sign state stores a signature only with the sign bytes
it signed: `GenFilePV` stores none, and every request keeps it so. The sign state is read back
from a file, though, and `signVote` hands back whatever signature it holds without checking it. -/

namespace Dgrid.Consensus
open Go Dgrid.Types

section Keys

variable (crypto : Crypto) (pubKey : PubKey)

/-- `PrivKey.Sign` is the private key of `pubKey`: every signature it returns verifies. -/
def SignsFor (sign : Bytes → Except String Bytes) : Prop :=
  ∀ msg sig, sign msg = .ok sig → crypto.verifyBytes pubKey msg sig = true

/-- The stored signature, if any, verifies over the stored sign bytes. -/
def FilePVLastSignState.SignedOK (lss : FilePVLastSignState) : Prop :=
  ∀ sb sig, lss.SignBytes = some sb → lss.Signature = some sig →
    crypto.verifyBytes pubKey sb sig = true

theorem gen_signedOK : GenFilePV.SignedOK crypto pubKey := by
  intro sb sig hsb
  cases hsb

theorem saveSigned_signedOK {lss : FilePVLastSignState} {height round step : Int}
    {signBytes sig : Bytes} (hv : crypto.verifyBytes pubKey signBytes sig = true) :
    (lss.saveSigned height round step signBytes sig).SignedOK crypto pubKey := by
  rintro sb sig' ⟨⟩ ⟨⟩
  exact hv

end Keys

theorem signMsg_signedOK {crypto : Crypto} {pubKey : PubKey}
    {f : Bytes → Bytes → Result (Time × Bool)} {sign : Bytes → Except String Bytes}
    {lss lss' : FilePVLastSignState} {height round step : Int} {signBytes : Bytes} {timestamp : Time}
    {res : Except SignError (Time × Bytes)} (hkey : SignsFor crypto pubKey sign)
    (hok : lss.SignedOK crypto pubKey)
    (h : signMsg f sign lss height round step signBytes timestamp = .ok (res, lss')) :
    lss'.SignedOK crypto pubKey := by
  rcases signMsg_cases h with ⟨sig, hsign, -, -, rfl⟩ | ⟨rfl, -⟩ | ⟨rfl, -⟩
  · exact saveSigned_signedOK crypto pubKey (hkey _ _ hsign)
  · exact hok
  · exact hok

theorem next_signedOK {crypto : Crypto} {pubKey : PubKey} {cdc : PVCodec}
    {sign : Bytes → Except String Bytes} {lss lss' : FilePVLastSignState} {req : Request}
    (hkey : SignsFor crypto pubKey sign) (hok : lss.SignedOK crypto pubKey)
    (h : req.next cdc sign lss = .ok lss') : lss'.SignedOK crypto pubKey := by
  obtain ⟨_, _, _, _, _, _, _, hm⟩ := next_signMsg h
  exact signMsg_signedOK hkey hok hm

section Lawful

variable {crypto : Crypto} {pubKey : PubKey} {cdc : PVCodec} (hc : cdc.Lawful)
  {sign : Bytes → Except String Bytes} (hkey : SignsFor crypto pubKey sign)
  {now : Time} {lss lss' : FilePVLastSignState} {chainID : String}
include hc hkey

theorem SignVote_verifies (hok : lss.SignedOK crypto pubKey) (hcan : lss.Canonical cdc)
    {vote vote' : Vote} (h : SignVote cdc now sign lss chainID vote = .ok (.ok vote', lss')) :
    crypto.verifyBytes pubKey (vote'.SignBytes cdc.toCodec chainID) vote'.Signature = true := by
  obtain ⟨step, -, hres, -⟩ := SignVote_spec hc h
  rcases hres vote' rfl with ⟨-, hsign, hv, -⟩ | ⟨-, -, hsig, -, sb, hsb, -, hbytes⟩
  · -- a fresh signature of the vote's own bytes
    rw [hv]
    exact hkey _ _ hsign
  · -- the stored signature, of the stored bytes, which are the vote's
    rw [← hbytes hcan]
    exact hok _ _ hsb hsig

theorem SignProposal_verifies (hok : lss.SignedOK crypto pubKey) (hcan : lss.Canonical cdc)
    {proposal proposal' : Proposal}
    (h : SignProposal cdc now sign lss chainID proposal = .ok (.ok proposal', lss')) :
    crypto.verifyBytes pubKey (Proposal.SignBytes cdc chainID proposal') proposal'.Signature =
      true := by
  obtain ⟨hres, -⟩ := SignProposal_spec hc h
  rcases hres proposal' rfl with ⟨-, hsign, hp, -⟩ | ⟨-, -, hsig, -, sb, hsb, -, hbytes⟩
  · rw [hp]
    exact hkey _ _ hsign
  · rw [← hbytes hcan]
    exact hok _ _ hsb hsig

end Lawful

/-- The signer's signatures verify once its sign state does: the states of any run from
`GenFilePV` store only verifying pairs, of sign bytes that are the encoding of the message
signed; and from such a state every vote and proposal it returns verifies over its own sign
bytes. -/
theorem filePV_signatures_verify {crypto : Crypto} {pubKey : PubKey} {cdc : PVCodec}
    (hc : cdc.Lawful) {sign : Bytes → Except String Bytes} (hkey : SignsFor crypto pubKey sign) :
    (∀ reqs states, run cdc sign GenFilePV reqs = .ok states →
      ∀ lss ∈ GenFilePV :: states, lss.SignedOK crypto pubKey ∧ lss.Canonical cdc) ∧
    (∀ now lss chainID vote vote' lss', lss.SignedOK crypto pubKey → lss.Canonical cdc →
      SignVote cdc now sign lss chainID vote = .ok (.ok vote', lss') →
      crypto.verifyBytes pubKey (vote'.SignBytes cdc.toCodec chainID) vote'.Signature = true) ∧
    (∀ now lss chainID proposal proposal' lss', lss.SignedOK crypto pubKey →
      lss.Canonical cdc → SignProposal cdc now sign lss chainID proposal = .ok (.ok proposal', lss') →
      crypto.verifyBytes pubKey (Proposal.SignBytes cdc chainID proposal') proposal'.Signature =
        true) := by
  refine ⟨fun reqs states h lss hmem => ?_,
    fun _ _ _ _ _ _ hok hcan h => SignVote_verifies hc hkey hok hcan h,
    fun _ _ _ _ _ _ hok hcan h => SignProposal_verifies hc hkey hok hcan h⟩
  -- both halves of the state's validity are kept by every request
  have h₀ : GenFilePV.SignedOK crypto pubKey ∧ GenFilePV.Canonical cdc :=
    ⟨gen_signedOK crypto pubKey, gen_canonical cdc⟩
  rcases List.mem_cons.mp hmem with rfl | hmem
  · exact h₀
  · exact run_invariant (P := fun s => s.SignedOK crypto pubKey ∧ s.Canonical cdc)
      (fun _ _ _ hv hn => ⟨next_signedOK hkey hv.1 hn, next_canonical hv.2 hn⟩) h₀ h lss hmem

/-- The private key of `echoCrypto`'s `[1]`. -/
def echoSign (msg : Bytes) : Except String Bytes := .ok ([1] ++ msg)

theorem echoSign_signsFor : SignsFor echoCrypto [1] echoSign := by
  rintro msg sig ⟨⟩
  simp [echoCrypto]

theorem filePV_signatures_verify_prevote :
    let v : Vote := ⟨PrevoteType, 1, 0, ⟨[], ⟨0, []⟩⟩, 0, [], 0, []⟩
    let lss₁ : FilePVLastSignState := GenFilePV.saveSigned 1 0 stepPrevote
      (v.SignBytes unaryPVCodec.toCodec "") ([1] ++ v.SignBytes unaryPVCodec.toCodec "")
    unaryPVCodec.Lawful ∧ SignsFor echoCrypto [1] echoSign ∧
      run unaryPVCodec echoSign GenFilePV [.vote 0 "" v] = .ok [lss₁] ∧
      lss₁.SignedOK echoCrypto [1] ∧ lss₁.Canonical unaryPVCodec := by
  intro v lss₁
  have hrun : run unaryPVCodec echoSign GenFilePV [.vote 0 "" v] = .ok [lss₁] := by
    simp [run, Request.next, SignVote, signVote, signMsg, voteToStep, GenFilePV,
      FilePVLastSignState.CheckHRS, stepPrevote, stepNone, echoSign, v, lss₁, Except.mapError,
      Except.map]
  exact ⟨unaryPVCodec_lawful, echoSign_signsFor, hrun,
    (filePV_signatures_verify unaryPVCodec_lawful echoSign_signsFor).1 _ _ hrun lss₁ (by simp)⟩

/-- A sign state read back from a file whose stored signature is not one of the stored bytes
(a state file kept when the key file was replaced): a prevote for its height, round and step
with the stored sign bytes is answered with the stored signature, which does not verify. -/
theorem signVote_returns_unchecked_signature :
    let vote : Vote := ⟨PrevoteType, 1, 0, ⟨[], ⟨0, []⟩⟩, 0, [], 0, []⟩
    let lss : FilePVLastSignState :=
      ⟨1, 0, stepPrevote, some [], some (vote.SignBytes unaryPVCodec.toCodec "")⟩
    unaryPVCodec.Lawful ∧ SignsFor echoCrypto [1] echoSign ∧
      SignVote unaryPVCodec 0 echoSign lss "" vote = .ok (.ok vote, lss) ∧
      echoCrypto.verifyBytes [1] (vote.SignBytes unaryPVCodec.toCodec "") vote.Signature = false :=
  ⟨unaryPVCodec_lawful, echoSign_signsFor,
    by simp [SignVote, signVote, signMsg, voteToStep, FilePVLastSignState.CheckHRS, stepPrevote,
      Except.mapError, Except.map],
    by simp [echoCrypto]⟩

end Dgrid.Consensus
