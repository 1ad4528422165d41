import Dgrid.Lite.DynamicVerifier

/-! `DynamicVerifier.Verify` (lite/dynamic_verifier.go) and the `BaseVerifier` it checks a header
with (lite/base_verifier.go). A header whose hash is the stored one at its height is trusted as
it is; otherwise the latest trusted commit below it, brought up to the height below by
`updateToHeight` when its next validator set is not the header's, checks the header with a
`BaseVerifier`, and the header is saved with the source's next validator set. The wait on a
pending verification of the same height only orders concurrent calls, and is left out. -/

namespace Dgrid.Lite

open Go Dgrid.Types

section Verify
variable (cdc : Codec) (crypto : Crypto) (H : Hashes) (chainID : String) (source : Provider)

def BaseVerifier.Verify (height : Int) (valset : ValidatorSet) (sh : SignedHeader) :
    Result (Option LiteError) :=
  if valset.IsNilOrEmpty then .panic "NewBaseVerifier requires a valid valset"
  else if sh.LeagueID ≠ chainID then .ok (some (.verifierChain chainID sh.LeagueID))
  else if sh.Height < height then .ok (some (.verifierHeight height sh.Height))
  else if sh.ValidatorsHash ≠ valset.Hash H then
    .ok (some (.unexpectedValidators sh.ValidatorsHash (valset.Hash H)))
  else match sh.ValidateBasic H chainID with
    | some err => .ok (some (.inVerify (.header err)))
    | none => do
      let (err, _) ← valset.VerifyCommit cdc crypto chainID sh.Commit.BlockID sh.Height sh.Commit
      pure (err.map fun err => .inVerify (.commit err))

/-- The end of `Verify`, from the base verifier at the height after `trustedFC` on: the header is
saved with the source's next validator set, unless the source does not know that set. -/
def verifyAgainst (trusted : TrustedStore) (trustedFC : FullCommit) (shdr : SignedHeader) :
    Result (Option LiteError × TrustedStore) :=
  match BaseVerifier.Verify cdc crypto H chainID (wrap64 (trustedFC.Height + 1))
      trustedFC.NextValidators shdr with
  | .panic msg => .panic msg
  | .ok (some err) => .ok (some err, trusted)
  | .ok none =>
    match source.ValidatorSet chainID (wrap64 (shdr.Height + 1)) with
    | .error err => if IsErrUnknownValidators err then .ok (none, trusted) else .ok (some err, trusted)
    | .ok nextValset =>
      let nfc : FullCommit := ⟨shdr, trustedFC.NextValidators, nextValset⟩
      match nfc.ValidateFull cdc crypto H chainID with
      | .panic msg => .panic msg
      | .ok (some err) => .ok (some err, trusted)
      | .ok none => .ok (none, trusted.SaveFullCommit nfc)

/-- `Verify` past its look at the store at the header's height: the trusted commit below the
header, brought up to the height below when its next validator set is not the header's. -/
def verifySynced (fuel : Nat) (trusted : TrustedStore) (shdr : SignedHeader) :
    Option (Result (Option LiteError × TrustedStore)) :=
  let prevHeight := wrap64 (shdr.Height - 1)
  match trusted.LatestFullCommit 1 prevHeight with
  | .error err => some (.ok (some err, trusted))
  | .ok trustedFC =>
    if trustedFC.Height = prevHeight then
      if trustedFC.NextValidators.Hash H ≠ shdr.ValidatorsHash then
        some (.ok (some (.unexpectedValidators (trustedFC.NextValidators.Hash H) shdr.ValidatorsHash),
          trusted))
      else some (verifyAgainst cdc crypto H chainID source trusted trustedFC shdr)
    else if trustedFC.NextValidators.Hash H ≠ shdr.ValidatorsHash then
      match updateToHeight cdc crypto chainID source (fun fc => fc.ValidateFull cdc crypto H chainID)
          fuel trusted prevHeight with
      | none => none
      | some (.panic msg) => some (.panic msg)
      | some (.ok (.error err, trusted)) => some (.ok (some err, trusted))
      | some (.ok (.ok trustedFC, trusted)) =>
        if trustedFC.NextValidators.Hash H ≠ shdr.ValidatorsHash then
          some (.ok (some (.unexpectedValidators (trustedFC.NextValidators.Hash H)
            shdr.ValidatorsHash), trusted))
        else some (verifyAgainst cdc crypto H chainID source trusted trustedFC shdr)
    else some (verifyAgainst cdc crypto H chainID source trusted trustedFC shdr)

/-- `dv.Verify(shdr)`, with `fuel` rounds for `updateToHeight`: the error, if any, and the store. -/
def Verify (fuel : Nat) (trusted : TrustedStore) (shdr : SignedHeader) :
    Option (Result (Option LiteError × TrustedStore)) :=
  match trusted.LatestFullCommit shdr.Height shdr.Height with
  | .ok trustedFCSameHeight =>
    if trustedFCSameHeight.SignedHeader.Hash H = shdr.Hash H then some (.ok (none, trusted))
    else verifySynced cdc crypto H chainID source fuel trusted shdr
  | .error err =>
    if !IsErrCommitNotFound err then some (.ok (some err, trusted))
    else verifySynced cdc crypto H chainID source fuel trusted shdr

/-! ### What `Verify` trusts -/

/-- A `BaseVerifier` at the height after `t`, with `t`'s next validator set, accepts `sh`. -/
def BaseAccepts (t : FullCommit) (sh : SignedHeader) : Prop :=
  wrap64 (t.Height + 1) ≤ sh.Height ∧ sh.LeagueID = chainID ∧ t.NextValidators.Size ≠ 0 ∧
    sh.ValidatorsHash = t.NextValidators.Hash H ∧ sh.ValidateBasic H chainID = none ∧
    ∃ vals, t.NextValidators.VerifyCommit cdc crypto chainID sh.Commit.BlockID sh.Height sh.Commit =
      .ok (none, vals)

/-- The steps by which the light client comes to trust a commit from a trusted `t`: the future
commit check of `updateToHeight`, or the base verifier of `Verify` with `t`'s next validator set. -/
def Trusts (t fc : FullCommit) : Prop :=
  Accepts cdc crypto chainID t fc ∨
    (BaseAccepts cdc crypto H chainID t fc.SignedHeader ∧ fc.Validators = t.NextValidators)

theorem BaseVerifier_ok {t : FullCommit} {sh : SignedHeader}
    (h : BaseVerifier.Verify cdc crypto H chainID (wrap64 (t.Height + 1)) t.NextValidators sh =
      .ok none) :
    BaseAccepts cdc crypto H chainID t sh := by
  unfold BaseVerifier.Verify at h
  split_ifs at h with h₁ h₂ h₃ h₄ <;> try cases h
  split at h
  · cases h
  · rename_i hb
    obtain ⟨⟨err, vals⟩, hv, hrest⟩ := Result.bind_eq_ok.mp h
    cases err with
    | some e => cases hrest
    | none =>
      have hsize : t.NextValidators.Size ≠ 0 := by
        simpa [ValidatorSet.IsNilOrEmpty, ValidatorSet.Size] using h₁
      exact ⟨not_lt.mp h₃, not_not.mp h₂, hsize, not_not.mp h₄, hb, vals, hv⟩

theorem verifyAgainst_ok {store store' : TrustedStore} {t : FullCommit} {shdr : SignedHeader}
    (h : verifyAgainst cdc crypto H chainID source store t shdr = .ok (none, store')) :
    BaseAccepts cdc crypto H chainID t shdr ∧
      (store' = store ∨ ∃ next, store' = store.SaveFullCommit ⟨shdr, t.NextValidators, next⟩) := by
  unfold verifyAgainst at h
  split at h
  · cases h
  · cases h
  · rename_i hb
    refine ⟨BaseVerifier_ok cdc crypto H chainID hb, ?_⟩
    split at h
    · split at h
      · cases h
        exact .inl rfl
      · cases h
    · dsimp only at h
      split at h
      · cases h
      · cases h
      · cases h
        exact .inr ⟨_, rfl⟩

theorem verifySynced_ok {fuel : Nat} {store store' : TrustedStore} {shdr : SignedHeader}
    (h : verifySynced cdc crypto H chainID source fuel store shdr = some (.ok (none, store'))) :
    ∃ t store₂, Grows (Accepts cdc crypto chainID) store store₂ ∧ t ∈ store₂.commits ∧
      verifyAgainst cdc crypto H chainID source store₂ t shdr = .ok (none, store') := by
  unfold verifySynced at h
  dsimp only at h
  split at h
  · cases h
  · rename_i t hl
    have ht := (TrustedStore.LatestFullCommit_spec hl).1
    split at h
    · split at h
      · cases h
      · exact ⟨t, store, Grows.refl _ _, ht, Option.some.inj h⟩
    · split at h
      · -- the store is first brought up to the height below the header
        split at h
        · cases h
        · cases h
        · cases h
        · rename_i fc store₂ hrun
          obtain ⟨hgrow, hret⟩ := (run_sound cdc crypto chainID source
            (fun fc => fc.ValidateFull cdc crypto H chainID) fuel).1 store _ _ store₂ hrun
          split at h
          · cases h
          · exact ⟨fc, store₂, hgrow, (hret fc rfl).2, Option.some.inj h⟩
      · exact ⟨t, store, Grows.refl _ _, ht, Option.some.inj h⟩

theorem Verify_ok {fuel : Nat} {store store' : TrustedStore} {shdr : SignedHeader}
    (h : Verify cdc crypto H chainID source fuel store shdr = some (.ok (none, store'))) :
    (store' = store ∧ ∃ fc ∈ store.commits, fc.SignedHeader.Hash H = shdr.Hash H) ∨
      verifySynced cdc crypto H chainID source fuel store shdr = some (.ok (none, store')) := by
  unfold Verify at h
  split at h
  · rename_i fc hl
    split at h
    · cases h
      exact .inl ⟨rfl, fc, (TrustedStore.LatestFullCommit_spec hl).1, by assumption⟩
    · exact .inr h
  · split at h
    · cases h
    · exact .inr h

/-- `Verify` trusts only along trust chains: when it succeeds, every commit the store held at
another height than the header's is still held, every commit it holds is reachable from those
it held by future commit checks and base verifier checks, and the header is the stored one under
its hash or was accepted by a base verifier from such a commit. -/
theorem Verify_trust_chain (fuel : Nat) (store : TrustedStore) (shdr : SignedHeader)
    {store' : TrustedStore}
    (hrun : Verify cdc crypto H chainID source fuel store shdr = some (.ok (none, store'))) :
    (∀ fc ∈ store.commits, fc.Height ≠ shdr.Height → fc ∈ store'.commits) ∧
    (∀ fc ∈ store'.commits,
      Transition.Reachable (· ∈ store.commits) (Trusts cdc crypto H chainID) fc) ∧
    ((∃ fc ∈ store.commits, fc.SignedHeader.Hash H = shdr.Hash H) ∨
      ∃ t, Transition.Reachable (· ∈ store.commits) (Trusts cdc crypto H chainID) t ∧
        BaseAccepts cdc crypto H chainID t shdr) := by
  rcases Verify_ok cdc crypto H chainID source hrun with ⟨rfl, hsame⟩ | hsync
  · exact ⟨fun fc hfc _ => hfc, fun fc hfc => .init hfc, .inl hsame⟩
  obtain ⟨t, store₂, hgrow, ht, htail⟩ := verifySynced_ok cdc crypto H chainID source hsync
  have hgrow' : Grows (Trusts cdc crypto H chainID) store store₂ :=
    hgrow.mono fun _ _ hacc => .inl hacc
  have hreach := hgrow'.chained
  obtain ⟨hbase, rfl | ⟨next, rfl⟩⟩ := verifyAgainst_ok cdc crypto H chainID source htail
  · exact ⟨fun fc hfc _ => hgrow.keeps fc hfc, hreach, .inr ⟨t, hreach t ht, hbase⟩⟩
  refine ⟨fun fc hfc hne => ?_, fun fc hfc => ?_, .inr ⟨t, hreach t ht, hbase⟩⟩
  · exact TrustedStore.mem_SaveFullCommit.mpr (.inr ⟨hgrow.keeps fc hfc, hne⟩)
  · -- the saved header is one step of trust from `t`
    rcases TrustedStore.mem_SaveFullCommit.mp hfc with rfl | ⟨hfc, -⟩
    · exact (hreach t ht).step (.inr ⟨hbase, rfl⟩)
    · exact hreach fc hfc

end Verify

end Dgrid.Lite
