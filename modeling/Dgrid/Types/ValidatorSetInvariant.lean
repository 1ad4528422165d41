import Dgrid.Types.ValidatorSetSpec
import Dgrid.Lib.Transition

/-! The invariant of the validator sets the code builds. `processChanges` turns any change list
into address-sorted updates and removals; `verifyRemovals` admits only removals of members; the
merge of `applyUpdates` and the walk of `applyRemovals` keep the list sorted; the empty-set check
keeps it non-empty; `updateTotalVotingPower` bounds and caches the sum. Every set reachable
from `NewValidatorSet` by the calls that change a set is therefore non-empty, sorted, with
positive powers whose sum fits and is the cached total, and its lookups are exact. -/

namespace Dgrid.Types
open Go KeyedList

/-! ### `processChanges` -/

theorem ValidatorsByAddress.less_eq (a b : Validator) :
    ValidatorsByAddress.Less a b = decide (a.address < b.address) := by
  unfold ValidatorsByAddress.Less
  rcases bytesCompare_cases a.address.bytes b.address.bytes with h | h | h <;>
    simp [Address.lt_iff, h]

theorem sortSort_byAddress (l : List Validator) :
    (sortSort ValidatorsByAddress.Less l).Pairwise (fun a b => a.address ≤ b.address) := by
  have h := @sortSort_pairwise Validator ValidatorsByAddress.Less
    (fun a => by simp [ValidatorsByAddress.less_eq])
    (fun a b c hab hbc => by
      simp only [ValidatorsByAddress.less_eq, decide_eq_true_eq] at hab hbc ⊢
      exact lt_trans hab hbc)
    (fun a b hab hba c => by
      simp only [ValidatorsByAddress.less_eq, decide_eq_false_iff_not, not_lt] at hab hba ⊢
      rw [le_antisymm hba hab])
    l
  exact h.imp (fun hab => by simpa [ValidatorsByAddress.less_eq] using hab)

namespace ValidatorSet

theorem processChangesLoop_ok {changes : List Validator} {prev : Address}
    {l ups dels : List Validator} (h : processChangesLoop changes prev l = .ok (ups, dels)) :
    (∀ v ∈ l, 0 ≤ v.votingPower ∧ v.votingPower ≤ MaxTotalVotingPower) ∧
      ups = l.filter (fun v => v.votingPower ≠ 0) ∧
      dels = l.filter (fun v => v.votingPower = 0) := by
  induction l generalizing prev ups dels with
  | nil =>
      simp only [processChangesLoop, Except.ok.injEq, Prod.mk.injEq] at h
      obtain ⟨rfl, rfl⟩ := h
      simp
  | cons v l ih =>
      simp only [processChangesLoop] at h
      -- past the three checks, the power decides which list the change joins
      split_ifs at h with h₁ h₂ h₃ h₄ <;>
      · obtain ⟨⟨ups', dels'⟩, hrest, h⟩ := except_bind_eq_ok.mp h
        obtain ⟨hb, rfl, rfl⟩ := ih hrest
        simp only [pure, Except.pure, Except.ok.injEq, Prod.mk.injEq] at h
        obtain ⟨rfl, rfl⟩ := h
        refine ⟨fun w hw => ?_, by simp [h₄]⟩
        rcases List.mem_cons.mp hw with rfl | hw
        · exact ⟨by omega, by omega⟩
        · exact hb w hw

theorem processChangesLoop_sorted {changes : List Validator} {prev : Address}
    {l : List Validator} {r : List Validator × List Validator}
    (hl : l.Pairwise (fun a b => a.address ≤ b.address))
    (h : processChangesLoop changes prev l = .ok r) :
    StrictSorted Validator.address l ∧ ∀ v ∈ l.head?, v.address ≠ prev := by
  induction l generalizing prev r with
  | nil => exact ⟨List.Pairwise.nil, by simp⟩
  | cons v l ih =>
      simp only [processChangesLoop] at h
      split_ifs at h with h₁ h₂ h₃ h₄ <;>
      · obtain ⟨r', hrest, -⟩ := except_bind_eq_ok.mp h
        obtain ⟨hs, hhead⟩ := ih (List.pairwise_cons.mp hl).2 hrest
        refine ⟨strictSorted_cons.mpr ⟨fun w hw => ?_, hs⟩, by simpa using h₁⟩
        -- the next change has another address and no later one is smaller
        cases l with
        | nil => cases hw
        | cons u l =>
            have hvu : v.address < u.address :=
              lt_of_le_of_ne ((List.pairwise_cons.mp hl).1 u List.mem_cons_self)
                (Ne.symm (hhead u rfl))
            exact lt_of_lt_of_le hvu (hs.head_le hw)

theorem processChanges_ok {changes ups dels : List Validator}
    (h : processChanges changes = .ok (ups, dels)) :
    StrictSorted Validator.address ups ∧ StrictSorted Validator.address dels ∧
      (∀ u ∈ ups, 0 < u.votingPower ∧ u.votingPower ≤ MaxTotalVotingPower) ∧
      (∀ d ∈ dels, d.address ∉ ups.map Validator.address) := by
  unfold processChanges at h
  obtain ⟨hb, rfl, rfl⟩ := processChangesLoop_ok h
  obtain ⟨hs, -⟩ := processChangesLoop_sorted (sortSort_byAddress changes) h
  refine ⟨List.Pairwise.filter _ hs, List.Pairwise.filter _ hs, fun u hu => ?_, fun d hd hmem => ?_⟩
  · simp only [List.mem_filter, decide_eq_true_eq] at hu
    exact ⟨lt_of_le_of_ne (hb u hu.1).1 (Ne.symm hu.2), (hb u hu.1).2⟩
  · -- an update and a removal with one address would be one change, of zero and non-zero power
    obtain ⟨u, hu, hud⟩ := List.mem_map.mp hmem
    simp only [List.mem_filter, decide_eq_true_eq] at hd hu
    obtain rfl := List.inj_on_of_nodup_map hs.nodup_keys hu.1 hd.1 hud
    exact hu.2 hd.2

/-! ### The other checks and the two merges -/

theorem verifyRemovals_ok {dels : List Validator} {vals : ValidatorSet}
    (hs : StrictSorted Validator.address vals.validators)
    (h : verifyRemovals dels vals = .ok none) :
    ∀ d ∈ dels, d.address ∈ vals.validators.map Validator.address := by
  unfold verifyRemovals at h
  split at h
  · cases h
  · rename_i hfind
    intro d hd
    have hfound := List.find?_eq_none.mp hfind d hd
    by_contra hn
    simp [getByAddress_of_not_mem hs hn] at hfound

theorem verifyUpdates_of_wellFormed {vals : ValidatorSet} (hw : vals.WellFormed)
    (updates : List Validator) :
    verifyUpdates updates vals =
      .ok (verifyUpdatesLoop vals (powerSum vals.validators) 0 updates, vals) := by
  simp [verifyUpdates, totalVotingPower_of_wellFormed hw]

theorem computeNewPriorities_stake (updates : List Validator) (vals : ValidatorSet) (T : Int) :
    (computeNewPriorities updates vals T).map Validator.stake = updates.map Validator.stake := by
  unfold computeNewPriorities
  rw [List.map_map]
  refine List.map_congr_left (fun u _ => ?_)
  simp only [Function.comp]
  split <;> rfl

theorem applyRemovals_eq {vals : ValidatorSet} {dels : List Validator}
    (hs : StrictSorted Validator.address vals.validators)
    (hd : StrictSorted Validator.address dels)
    (hsub : ∀ d ∈ dels, d.address ∈ vals.validators.map Validator.address) :
    vals.applyRemovals dels = .ok { vals with
      validators := without Validator.address vals.validators dels
      proposer := detachProposer vals.validators (dels.map (·.address)) vals.proposer } := by
  simp [applyRemovals, removeByKey_eq hs hd hsub]

theorem updateWithChangeSet_cases {vals vals' : ValidatorSet} {changes : List Validator}
    {allowDeletes : Bool} {err : Option ChangeSetError} (hw : vals.WellFormed)
    (h : vals.updateWithChangeSet changes allowDeletes = .ok (err, vals')) :
    (vals' = vals ∧ (err = none → changes = [])) ∨
    (err = none ∧ ∃ ups dels T vals₁ vals₂ total vals₃ vals₄,
      processChanges changes = .ok (ups, dels) ∧
      (∀ d ∈ dels, d.address ∈ vals.validators.map Validator.address) ∧
      (ups ≠ [] ∨ vals.validators.length ≠ dels.length) ∧
      (vals.applyUpdates (computeNewPriorities ups vals T)).applyRemovals dels = .ok vals₁ ∧
      vals₁.updateTotalVotingPower = .ok vals₂ ∧
      vals₂.TotalVotingPower = .ok (total, vals₃) ∧
      vals₃.RescalePriorities (wrap64 (PriorityWindowSizeFactor * total)) = .ok vals₄ ∧
      vals₄.shiftByAvgProposerPriority = .ok vals') := by
  unfold updateWithChangeSet at h
  split_ifs at h with hlen
  · cases h
    exact .inl ⟨rfl, fun _ => List.eq_nil_of_length_eq_zero hlen⟩
  split at h
  · cases h
    exact .inl ⟨rfl, by simp⟩
  rename_i ups dels hpc
  split_ifs at h
  · cases h
    exact .inl ⟨rfl, by simp⟩
  obtain ⟨err?, hrem, h⟩ := Result.bind_eq_ok.mp h
  rcases err? with _ | e
  swap
  · cases h
    exact .inl ⟨rfl, by simp⟩
  rw [verifyUpdates_of_wellFormed hw, Result.ok_bind] at h
  dsimp only at h
  split at h
  · cases h
    exact .inl ⟨rfl, by simp⟩
  rename_i T numNew hloop
  split_ifs at h with hempty
  · cases h
    exact .inl ⟨rfl, by simp⟩
  -- with no update the loop counts no new validator
  have hgrow : ups ≠ [] ∨ vals.validators.length ≠ dels.length := by
    rcases ups with _ | ⟨u, ups⟩
    · simp only [verifyUpdatesLoop, Except.ok.injEq, Prod.mk.injEq] at hloop
      exact .inr (fun hl => hempty ⟨hloop.2.symm, hl⟩)
    · exact .inl (List.cons_ne_nil u ups)
  obtain ⟨vals₁, h₁, h⟩ := Result.bind_eq_ok.mp h
  obtain ⟨vals₂, h₂, h⟩ := Result.bind_eq_ok.mp h
  obtain ⟨⟨total, vals₃⟩, h₃, h⟩ := Result.bind_eq_ok.mp h
  obtain ⟨vals₄, h₄, h⟩ := Result.bind_eq_ok.mp h
  obtain ⟨vals₅, h₅, h⟩ := Result.bind_eq_ok.mp h
  cases h
  exact .inr ⟨rfl, ups, dels, T, vals₁, vals₂, total, vals₃, vals₄, hpc,
    verifyRemovals_ok hw.sorted hrem, hgrow, h₁, h₂, h₃, h₄, h₅⟩

theorem updateWithChangeSet_error {vals vals' : ValidatorSet} {changes : List Validator}
    {allowDeletes : Bool} {err : ChangeSetError} (hw : vals.WellFormed)
    (h : vals.updateWithChangeSet changes allowDeletes = .ok (some err, vals')) : vals' = vals := by
  rcases updateWithChangeSet_cases hw h with ⟨rfl, -⟩ | ⟨hnone, -⟩
  · rfl
  · cases hnone

theorem applied_validators {V U D : List Validator} (hV : StrictSorted Validator.address V)
    (hU : StrictSorted Validator.address U) (hD : StrictSorted Validator.address D)
    (hsub : ∀ d ∈ D, d.address ∈ V.map Validator.address)
    (hdisj : ∀ d ∈ D, d.address ∉ U.map Validator.address)
    (hgrow : U ≠ [] ∨ V.length ≠ D.length) :
    StrictSorted Validator.address
        (without Validator.address (mergeByKey Validator.address V U) D) ∧
      (∀ x ∈ without Validator.address (mergeByKey Validator.address V U) D, x ∈ V ∨ x ∈ U) ∧
      without Validator.address (mergeByKey Validator.address V U) D ≠ [] := by
  have hM := mergeByKey_sorted hV hU
  refine ⟨hM.without D, fun x hx => ?_, ?_⟩
  · exact mem_mergeByKey (mem_without.mp hx).1
  by_cases hU0 : U = []
  · -- no update: fewer removals than validators leave one
    subst hU0
    rw [mergeByKey_nil_right]
    exact without_ne_nil hV hD hsub (hgrow.resolve_left (fun h => h rfl))
  · -- an update survives: its address is not removed
    obtain ⟨u, hu⟩ := List.exists_mem_of_ne_nil U hU0
    have huM : u ∈ mergeByKey Validator.address V U := (mem_mergeByKey_iff hV hU).mpr (.inr hu)
    have huD : u.address ∉ D.map Validator.address := by
      intro hmem
      obtain ⟨d, hd, hdu⟩ := List.mem_map.mp hmem
      exact hdisj d hd (hdu ▸ List.mem_map_of_mem hu)
    exact List.ne_nil_of_mem (mem_without.mpr ⟨huM, huD⟩)

theorem computeNewPriorities_sorted {ups : List Validator}
    (hups : StrictSorted Validator.address ups) (vals : ValidatorSet) (T : Int) :
    StrictSorted Validator.address (computeNewPriorities ups vals T) := by
  have hs := List.pairwise_map.mpr hups
  rw [← map_address_of_stake (computeNewPriorities_stake ups vals T)] at hs
  exact List.pairwise_map.mp hs

theorem applyUpdates_applyRemovals {vals vals₁ : ValidatorSet} (hw : vals.WellFormed)
    {changes ups dels : List Validator} (hpc : processChanges changes = .ok (ups, dels))
    (hsub : ∀ d ∈ dels, d.address ∈ vals.validators.map Validator.address) {T : Int}
    (h : (vals.applyUpdates (computeNewPriorities ups vals T)).applyRemovals dels = .ok vals₁) :
    vals₁.validators = without Validator.address
      (mergeByKey Validator.address vals.validators (computeNewPriorities ups vals T)) dels := by
  obtain ⟨hups, hdels, -, hdisj⟩ := processChanges_ok hpc
  have hU := computeNewPriorities_sorted hups vals T
  have hdisjU : ∀ d ∈ dels, d.address ∉ (computeNewPriorities ups vals T).map Validator.address := by
    rw [map_address_of_stake (computeNewPriorities_stake ups vals T)]
    exact hdisj
  -- every removal names an old validator that no update replaced, so the merge still has it
  have hsubM : ∀ d ∈ dels, d.address ∈
      (mergeByKey Validator.address vals.validators (computeNewPriorities ups vals T)).map
        Validator.address := by
    intro d hd
    obtain ⟨v, hv, hvd⟩ := List.mem_map.mp (hsub d hd)
    have hvM : v ∈ mergeByKey Validator.address vals.validators (computeNewPriorities ups vals T) :=
      (mem_mergeByKey_iff hw.sorted hU).mpr (.inl (mem_without.mpr ⟨hv, hvd ▸ hdisjU d hd⟩))
    exact hvd ▸ List.mem_map_of_mem hvM
  rw [applyRemovals_eq (mergeByKey_sorted hw.sorted hU) hdels hsubM] at h
  cases h
  rfl

theorem updateWithChangeSet_inv {vals vals' : ValidatorSet} {changes : List Validator}
    {allowDeletes : Bool} (hw : vals.WellFormed)
    (h : vals.updateWithChangeSet changes allowDeletes = .ok (none, vals')) :
    (vals' = vals ∧ changes = []) ∨ vals'.Inv := by
  rcases updateWithChangeSet_cases hw h with ⟨hv, hnil⟩ |
    ⟨-, ups, dels, T, vals₁, vals₂, total, vals₃, vals₄, hpc, hsub, hgrow, h₁, h₂, h₃, h₄, h₅⟩
  · exact .inl ⟨hv, hnil rfl⟩
  right
  obtain ⟨hups, hdels, hpow, hdisj⟩ := processChanges_ok hpc
  -- the new priorities keep the updates' addresses and powers
  have hUst := computeNewPriorities_stake ups vals T
  have hU := computeNewPriorities_sorted hups vals T
  set U := computeNewPriorities ups vals T
  have hUpow : ∀ u ∈ U, 0 < u.votingPower ∧ u.votingPower ≤ MaxTotalVotingPower := by
    intro u hu
    obtain ⟨v, hv, hp⟩ := exists_votingPower_of_stake hUst hu
    exact hp ▸ hpow v hv
  have hgrowU : U ≠ [] ∨ vals.validators.length ≠ dels.length := by
    refine hgrow.imp_left (fun hne hU => hne ?_)
    have hnil := hUst
    rw [hU, List.map_nil, eq_comm, List.map_eq_nil_iff] at hnil
    exact hnil
  have hdisjU : ∀ d ∈ dels, d.address ∉ U.map Validator.address := by
    rw [map_address_of_stake hUst]
    exact hdisj
  have hv₁ := applyUpdates_applyRemovals hw hpc hsub h₁
  obtain ⟨hFs, hFmem, hFne⟩ := applied_validators hw.sorted hU hdels hsub hdisjU hgrowU
  have hFpow : ∀ x ∈ without Validator.address (mergeByKey Validator.address vals.validators U)
      dels, 0 < x.votingPower ∧ x.votingPower ≤ MaxTotalVotingPower :=
    fun x hx => (hFmem x hx).elim (hw.powers x) (hUpow x)
  rw [← hv₁] at hFs hFpow hFne
  obtain ⟨hv₂, hle⟩ := updateTotalVotingPower_ok hFpow h₂
  have hi₂ : vals₂.Inv := by
    subst hv₂
    exact ⟨⟨hFs, hFpow, rfl⟩, hFne, hle⟩
  rw [totalVotingPower_of_wellFormed hi₂.toWellFormed] at h₃
  cases h₃
  exact (hi₂.of_sameStake (rescalePriorities_sameStake h₄)).of_sameStake
    (shiftByAvgProposerPriority_sameStake h₅)

end ValidatorSet

theorem ValidatorSet.processChanges_of_pairwise {valz : List Validator}
    (h : valz.Pairwise fun a b => !ValidatorsByAddress.Less b a) :
    ValidatorSet.processChanges valz = ValidatorSet.processChangesLoop valz ⟨[]⟩ valz := by
  rw [ValidatorSet.processChanges, sortSort_of_pairwise h]

theorem NewValidatorSet_inv {valz : List Validator} {vals : ValidatorSet} (hne : valz ≠ [])
    (h : NewValidatorSet valz = .ok vals) : vals.Inv := by
  unfold NewValidatorSet at h
  obtain ⟨⟨err, vals₀⟩, h₀, h⟩ := Result.bind_eq_ok.mp h
  rcases err with _ | e
  · have hi : vals₀.Inv :=
      (ValidatorSet.updateWithChangeSet_inv ValidatorSet.empty_wellFormed h₀).resolve_left
        (fun hv => hne hv.2)
    dsimp only at h
    rw [if_pos (List.length_pos_of_ne_nil hne)] at h
    exact hi.of_sameStake (ValidatorSet.IncrementProposerPriority_sameStake hi.toWellFormed h)
  · cases h

namespace ValidatorSet

/-- A set made by `NewValidatorSet` from a non-empty list. -/
def Initial (vals : ValidatorSet) : Prop :=
  ∃ valz, valz ≠ [] ∧ NewValidatorSet valz = .ok vals

/-- The calls on a `*ValidatorSet` that change it, each one that returned: `UpdateWithChangeSet`
(accepted or rejected), `IncrementProposerPriority`, and the getters that fill a cache. -/
inductive Step : ValidatorSet → ValidatorSet → Prop
  | update {vals vals' : ValidatorSet} (changes : List Validator) (err : Option ChangeSetError) :
      vals.UpdateWithChangeSet changes = .ok (err, vals') → Step vals vals'
  | increment {vals vals' : ValidatorSet} (times : Int) :
      vals.IncrementProposerPriority times = .ok vals' → Step vals vals'
  | totalVotingPower {vals vals' : ValidatorSet} (total : Int) :
      vals.TotalVotingPower = .ok (total, vals') → Step vals vals'
  | getProposer {vals vals' : ValidatorSet} (proposer : Option Validator) :
      vals.GetProposer = .ok (proposer, vals') → Step vals vals'

/-- The sets a program holds: made by `NewValidatorSet`, then changed by any calls. -/
def Reachable (vals : ValidatorSet) : Prop := Transition.Reachable Initial Step vals

theorem Step.inv {vals vals' : ValidatorSet} (hi : vals.Inv) (h : Step vals vals') : vals'.Inv := by
  cases h with
  | update changes err h =>
      rcases err with _ | e
      · rcases updateWithChangeSet_inv hi.toWellFormed h with ⟨rfl, -⟩ | hi'
        · exact hi
        · exact hi'
      · exact updateWithChangeSet_error hi.toWellFormed h ▸ hi
  | increment times h =>
      exact hi.of_sameStake (IncrementProposerPriority_sameStake hi.toWellFormed h)
  | totalVotingPower total h =>
      rw [totalVotingPower_of_wellFormed hi.toWellFormed] at h
      cases h
      exact hi
  | getProposer proposer h => exact hi.of_sameStake (GetProposer_sameStake h)

theorem Reachable.inv {vals : ValidatorSet} (h : vals.Reachable) : vals.Inv :=
  Transition.Reachable.invariant (fun _ ⟨_, hne, hnew⟩ => NewValidatorSet_inv hne hnew)
    (fun _ _ _ hi hs => hs.inv hi) h

/-- Three validators reached by five calls: one validator, a second one, a round, a third one of
power 5, then its power lowered to 1. -/
theorem reachable_three : (⟨[⟨⟨[0]⟩, [], 2, 4⟩, ⟨⟨[1]⟩, [], 2, 4⟩, ⟨⟨[2]⟩, [], 1, -6⟩],
    some (.member ⟨[0]⟩), 5⟩ : ValidatorSet).Reachable := by
  have h₀ : (⟨[⟨⟨[0]⟩, [], 2, 0⟩], some (.member ⟨[0]⟩), 2⟩ : ValidatorSet).Reachable :=
    .init ⟨[⟨⟨[0]⟩, [], 2, 0⟩], by simp, by decide +kernel⟩
  have h₁ : (⟨[⟨⟨[0]⟩, [], 2, 2⟩, ⟨⟨[1]⟩, [], 2, -2⟩], some (.member ⟨[0]⟩), 4⟩ :
      ValidatorSet).Reachable :=
    .step h₀ (.update [⟨⟨[1]⟩, [], 2, 0⟩] none (by decide +kernel))
  have h₂ : (⟨[⟨⟨[0]⟩, [], 2, 0⟩, ⟨⟨[1]⟩, [], 2, 0⟩], some (.member ⟨[0]⟩), 4⟩ :
      ValidatorSet).Reachable :=
    .step h₁ (.increment 1 (by decide +kernel))
  have h₃ : (⟨[⟨⟨[0]⟩, [], 2, 4⟩, ⟨⟨[1]⟩, [], 2, 4⟩, ⟨⟨[2]⟩, [], 5, -6⟩], some (.member ⟨[0]⟩),
      9⟩ : ValidatorSet).Reachable :=
    .step h₂ (.update [⟨⟨[2]⟩, [], 5, 0⟩] none (by decide +kernel))
  exact .step h₃ (.update [⟨⟨[2]⟩, [], 1, 0⟩] none (by decide +kernel))

/-- Every reachable set is non-empty and sorted by address without repeats, its powers are
positive and sum to at most `MaxTotalVotingPower`, the cached total is that sum and is what
`TotalVotingPower()` returns, and `HasAddress` and `GetByAddress` find exactly its members. -/
theorem reachable_validatorSet_invariant {vals : ValidatorSet} (h : vals.Reachable) :
    vals.validators ≠ [] ∧
      StrictSorted Validator.address vals.validators ∧
      (∀ v ∈ vals.validators, 0 < v.votingPower) ∧
      powerSum vals.validators ≤ MaxTotalVotingPower ∧
      vals.totalVotingPower = powerSum vals.validators ∧
      vals.TotalVotingPower = .ok (powerSum vals.validators, vals) ∧
      (∀ a, vals.HasAddress a = true ↔ a ∈ vals.validators.map Validator.address) ∧
      (∀ a, a ∉ vals.validators.map Validator.address → vals.GetByAddress a = (-1, none)) ∧
      (∀ (i : Nat) (hi : i < vals.validators.length),
        vals.GetByAddress vals.validators[i].address = ((i : Int), some vals.validators[i])) := by
  have hi := h.inv
  exact ⟨hi.nonempty, hi.sorted, fun v hv => (hi.powers v hv).1, hi.sum_le, hi.cached,
    totalVotingPower_of_wellFormed hi.toWellFormed, hasAddress_iff hi.sorted,
    fun _ ha => getByAddress_of_not_mem hi.sorted ha, getByAddress_getElem hi.sorted⟩

theorem reachable_validatorSet_invariant_three :
    let vals : ValidatorSet :=
      ⟨[⟨⟨[0]⟩, [], 2, 4⟩, ⟨⟨[1]⟩, [], 2, 4⟩, ⟨⟨[2]⟩, [], 1, -6⟩], some (.member ⟨[0]⟩), 5⟩
    vals.validators ≠ [] ∧
      StrictSorted Validator.address vals.validators ∧
      (∀ v ∈ vals.validators, 0 < v.votingPower) ∧
      powerSum vals.validators ≤ MaxTotalVotingPower ∧
      vals.totalVotingPower = powerSum vals.validators ∧
      vals.TotalVotingPower = .ok (powerSum vals.validators, vals) ∧
      (∀ a, vals.HasAddress a = true ↔ a ∈ vals.validators.map Validator.address) ∧
      (∀ a, a ∉ vals.validators.map Validator.address → vals.GetByAddress a = (-1, none)) ∧
      (∀ (i : Nat) (hi : i < vals.validators.length),
        vals.GetByAddress vals.validators[i].address = ((i : Int), some vals.validators[i])) :=
  reachable_validatorSet_invariant reachable_three

end ValidatorSet

end Dgrid.Types
