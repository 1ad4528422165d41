import Dgrid.Lite.DBProviderKeys

/-! What `SaveFullCommit` leaves in the store without a limit: the three values of the commit
under its three keys, and every other key as it was. The keys of a chain ID that is not empty
and has no `/`, at a height that is not negative, are those of no other chain and height, so
that a validator set read afterwards is the one saved for that height, the next one saved for
the height above, and otherwise what was read before. -/

namespace Dgrid.Lite

open Go Dgrid.Db

namespace DBProvider

variable (cdc : ProviderCodec) {dbp : DBProvider} {fc : FullCommit} {vsBz nvsBz shBz : Bytes}

theorem SaveFullCommit_ok (hv : cdc.marshalValidatorSet fc.Validators = .ok vsBz)
    (hn : cdc.marshalValidatorSet fc.NextValidators = .ok nvsBz)
    (hs : cdc.marshalSignedHeader fc.SignedHeader = .ok shBz) (hlimit : dbp.limit ≤ 0) :
    dbp.SaveFullCommit cdc fc = .ok (.ok { dbp with
      db := ((dbp.db.Set (validatorSetKey fc.ChainID fc.Height) vsBz).Set
        (validatorSetKey fc.ChainID (wrap64 (fc.Height + 1))) nvsBz).Set
        (signedHeaderKey fc.ChainID fc.Height) shBz }) := by
  simp only [SaveFullCommit, hv, hn, hs, memBatch.WriteSync_MemDB, memBatch.Write_eq]
  rw [if_neg (by omega)]
  rfl

theorem validatorSetKey_ne_signedHeaderKey (chainID chainID' : String) (height height' : Int) :
    validatorSetKey chainID height ≠ signedHeaderKey chainID' height' := by
  intro h
  have hlast := congrArg List.getLast? h
  rw [validatorSetKey, signedHeaderKey, heightKey, heightKey,
    List.getLast?_append_of_ne_nil _ (by decide), List.getLast?_append_of_ne_nil _ (by decide)]
    at hlast
  exact absurd hlast (by decide)

/-- After a save without a limit, of a commit of a chain ID that is not empty and has no `/`
and of a height in `[0, MaxInt64)`, the validator set read at a height of `int64` is read from
the set the save wrote for the commit's height, from the next set at the height above, and
otherwise from what the store held. -/
theorem getValidatorSet_SaveFullCommit (hv : cdc.marshalValidatorSet fc.Validators = .ok vsBz)
    (hn : cdc.marshalValidatorSet fc.NextValidators = .ok nvsBz)
    (hs : cdc.marshalSignedHeader fc.SignedHeader = .ok shBz) (hlimit : dbp.limit ≤ 0)
    (hc : stringBytes fc.ChainID ≠ []) (hcs : 0x2F ∉ stringBytes fc.ChainID)
    (h0 : 0 ≤ fc.Height) (hmax : fc.Height < maxInt64) :
    ∃ dbp', dbp.SaveFullCommit cdc fc = .ok (.ok dbp') ∧
      ∀ (chainID : String) (height : Int), height ≤ maxInt64 →
        dbp'.getValidatorSet cdc chainID height =
          readValidatorSet cdc chainID height
            (if chainID = fc.ChainID ∧ height = fc.Height then some vsBz
            else if chainID = fc.ChainID ∧ height = fc.Height + 1 then some nvsBz
            else dbp.db.Get (validatorSetKey chainID height)) := by
  refine ⟨_, SaveFullCommit_ok cdc hv hn hs hlimit, fun chainID height h64 => ?_⟩
  have hnext : wrap64 (fc.Height + 1) = fc.Height + 1 :=
    wrap64_of_inInt64 ⟨by simp only [minInt64]; omega, by omega⟩
  -- the key read is one of the commit's only for its chain at its two heights
  have hkey : ∀ h', 0 ≤ h' → h' ≤ maxInt64 →
      (validatorSetKey chainID height = validatorSetKey fc.ChainID h' ↔
        chainID = fc.ChainID ∧ height = h') := by
    intro h' hh' h64'
    constructor
    · exact heightKey_inj hc hcs hh' h64 h64' (by decide) (by decide)
    · rintro ⟨rfl, rfl⟩
      rfl
  simp only [getValidatorSet, MemDB.Get_Set, if_neg (validatorSetKey_ne_signedHeaderKey _ _ _ _),
    hnext, hkey (fc.Height + 1) (by omega) (by omega), hkey fc.Height h0 hmax.le]
  by_cases h₁ : chainID = fc.ChainID ∧ height = fc.Height
  · have h₂ : ¬ (chainID = fc.ChainID ∧ height = fc.Height + 1) := by omega
    rw [if_neg h₂, if_pos h₁, if_pos h₁]
  · rw [if_neg h₁, if_neg h₁]

theorem getValidatorSet_SaveFullCommit_sample :
    (NewDBProvider "trust" MemDB.NewMemDB).limit ≤ 0 ∧ stringBytes "chain" ≠ [] ∧
      (0x2F : UInt8) ∉ stringBytes "chain" ∧ (0 : Int) ≤ 3 ∧ (3 : Int) < maxInt64 ∧
      ∃ dbp', (NewDBProvider "trust" MemDB.NewMemDB).SaveFullCommit
          ⟨fun _ => .ok [1], fun _ => .error "", fun _ => .ok [2], fun _ => .error ""⟩
          ⟨⟨"chain", 3, [], [], ⟨default, []⟩⟩, .empty, .empty⟩ = .ok (.ok dbp') ∧
        ∀ (chainID : String) (height : Int), height ≤ maxInt64 →
          dbp'.getValidatorSet ⟨fun _ => .ok [1], fun _ => .error "", fun _ => .ok [2],
              fun _ => .error ""⟩ chainID height =
            readValidatorSet ⟨fun _ => .ok [1], fun _ => .error "", fun _ => .ok [2],
                fun _ => .error ""⟩ chainID height
              (if chainID = "chain" ∧ height = 3 then some [2]
              else if chainID = "chain" ∧ height = 3 + 1 then some [2]
              else MemDB.NewMemDB.Get (validatorSetKey chainID height)) :=
  ⟨le_refl 0, by decide, by decide, by decide, by decide,
    getValidatorSet_SaveFullCommit _ rfl rfl rfl (le_refl 0) (by decide) (by decide) (by decide)
      (by decide)⟩

end DBProvider

end Dgrid.Lite
