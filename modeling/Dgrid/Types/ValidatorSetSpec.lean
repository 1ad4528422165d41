import Dgrid.Types.ValidatorSet

/-! What each operation of `validator_set.go` does to the parts of a set that its invariants
read: the addresses and voting powers of the validators, in order, and the cached total.
Lookups are exact on an address-sorted list; the total is the sum of the powers; the priority
operations move priorities only. -/

namespace Dgrid.Types
open Go KeyedList

/-- The sum of the voting powers, computed without `int64` bounds. -/
def powerSum (l : List Validator) : Int := (l.map (·.votingPower)).sum

@[simp] theorem powerSum_nil : powerSum [] = 0 := rfl

@[simp] theorem powerSum_cons (v : Validator) (l : List Validator) :
    powerSum (v :: l) = v.votingPower + powerSum l := by
  simp [powerSum]

theorem powerSum_pos {l : List Validator} (hne : l ≠ []) (hpos : ∀ v ∈ l, 0 < v.votingPower) :
    0 < powerSum l := by
  induction l with
  | nil => exact absurd rfl hne
  | cons v l ih =>
      rw [powerSum_cons]
      by_cases hl : l = []
      · subst hl; simpa using hpos v List.mem_cons_self
      · have := ih hl (fun w hw => hpos w (List.mem_cons_of_mem v hw))
        have := hpos v List.mem_cons_self
        omega

theorem powerSum_nonneg {l : List Validator} (hpos : ∀ v ∈ l, 0 < v.votingPower) :
    0 ≤ powerSum l := by
  by_cases hne : l = []
  · subst hne
    rfl
  · exact (powerSum_pos hne hpos).le

/-- What the set's invariants read of a validator: its address and its voting power. -/
def Validator.stake (v : Validator) : Address × Int := (v.address, v.votingPower)

theorem map_address_of_stake {l l' : List Validator}
    (h : l'.map Validator.stake = l.map Validator.stake) :
    l'.map Validator.address = l.map Validator.address := by
  have := congrArg (List.map Prod.fst) h
  simpa [List.map_map, Function.comp_def, Validator.stake] using this

theorem powerSum_of_stake {l l' : List Validator}
    (h : l'.map Validator.stake = l.map Validator.stake) : powerSum l' = powerSum l := by
  have := congrArg (List.map Prod.snd) h
  simp only [List.map_map, Function.comp_def, Validator.stake] at this
  simp only [powerSum, this]

theorem exists_votingPower_of_stake {l l' : List Validator}
    (h : l'.map Validator.stake = l.map Validator.stake) {v' : Validator} (hv' : v' ∈ l') :
    ∃ v ∈ l, v.votingPower = v'.votingPower := by
  have hmem : v'.stake ∈ l.map Validator.stake := h ▸ List.mem_map_of_mem hv'
  obtain ⟨v, hv, hst⟩ := List.mem_map.mp hmem
  exact ⟨v, hv, congrArg Prod.snd hst⟩

/-- Setting a priority leaves the stake alone. -/
@[simp] theorem Validator.stake_setPriority (v : Validator) (q : Int) :
    Validator.stake { v with proposerPriority := q } = v.stake := rfl

namespace ValidatorSet

/-- What every set the code builds satisfies, the empty one included: validators sorted by
address without repeats, every power in `(0, MaxTotalVotingPower]`, and the cached total equal
to the sum of the powers. -/
structure WellFormed (vals : ValidatorSet) : Prop where
  sorted : StrictSorted Validator.address vals.validators
  powers : ∀ v ∈ vals.validators, 0 < v.votingPower ∧ v.votingPower ≤ MaxTotalVotingPower
  cached : vals.totalVotingPower = powerSum vals.validators

/-- The invariant of the sets in use: well formed, non-empty, and with a total that fits. -/
structure Inv (vals : ValidatorSet) : Prop extends vals.WellFormed where
  nonempty : vals.validators ≠ []
  sum_le : powerSum vals.validators ≤ MaxTotalVotingPower

theorem empty_wellFormed : empty.WellFormed := ⟨List.Pairwise.nil, by simp [empty], rfl⟩

theorem WellFormed.totalVotingPower_pos {vals : ValidatorSet} (hw : vals.WellFormed)
    (hne : vals.validators ≠ []) : 0 < vals.totalVotingPower :=
  hw.cached ▸ powerSum_pos hne (fun v hv => (hw.powers v hv).1)

/-- Two sets with the same validators up to priorities, and the same cached total. -/
def SameStake (vals vals' : ValidatorSet) : Prop :=
  vals'.validators.map Validator.stake = vals.validators.map Validator.stake ∧
    vals'.totalVotingPower = vals.totalVotingPower

theorem SameStake.refl (vals : ValidatorSet) : vals.SameStake vals := ⟨rfl, rfl⟩

theorem SameStake.trans {vals₁ vals₂ vals₃ : ValidatorSet} (h₁ : vals₁.SameStake vals₂)
    (h₂ : vals₂.SameStake vals₃) : vals₁.SameStake vals₃ :=
  ⟨h₂.1.trans h₁.1, h₂.2.trans h₁.2⟩

theorem WellFormed.of_sameStake {vals vals' : ValidatorSet} (hw : vals.WellFormed)
    (h : vals.SameStake vals') : vals'.WellFormed where
  sorted := by
    have hs := List.pairwise_map.mpr hw.sorted
    rw [← map_address_of_stake h.1] at hs
    exact List.pairwise_map.mp hs
  powers v' hv' := by
    obtain ⟨v, hv, hp⟩ := exists_votingPower_of_stake h.1 hv'
    exact hp ▸ hw.powers v hv
  cached := by rw [h.2, hw.cached, powerSum_of_stake h.1]

theorem Inv.of_sameStake {vals vals' : ValidatorSet} (hi : vals.Inv) (h : vals.SameStake vals') :
    vals'.Inv where
  toWellFormed := hi.toWellFormed.of_sameStake h
  nonempty := by
    intro hnil
    have := h.1
    rw [hnil, List.map_nil, eq_comm, List.map_eq_nil_iff] at this
    exact hi.nonempty this
  sum_le := powerSum_of_stake h.1 ▸ hi.sum_le

/-! ### Lookup by address -/

section Lookup

theorem addressAtLeast_eq (vals : ValidatorSet) (a : Address) :
    vals.addressAtLeast a = atLeast Validator.address vals.validators a := rfl

variable {vals : ValidatorSet} (hs : StrictSorted Validator.address vals.validators)
include hs

theorem hasAddress_iff (a : Address) :
    vals.HasAddress a = true ↔ a ∈ vals.validators.map Validator.address := by
  rw [← search_atLeast hs a, HasAddress, addressAtLeast_eq, Bool.and_eq_true, decide_eq_true_iff,
    decide_eq_true_iff]

theorem getByAddress_of_not_mem {a : Address} (ha : a ∉ vals.validators.map Validator.address) :
    vals.GetByAddress a = (-1, none) := by
  have hnot := (search_atLeast hs a).not.mpr ha
  simp only [GetByAddress]
  rw [addressAtLeast_eq]
  exact if_neg hnot

theorem getByAddress_getElem (i : Nat) (hi : i < vals.validators.length) :
    vals.GetByAddress vals.validators[i].address = ((i : Int), some vals.validators[i]) := by
  have hmem : vals.validators[i].address ∈ vals.validators.map Validator.address :=
    List.mem_map_of_mem (List.getElem_mem hi)
  obtain ⟨hlt, hat⟩ := (search_atLeast hs _).mpr hmem
  rw [getElem!_pos vals.validators _ hlt] at hat
  -- addresses do not repeat, so the position found is `i`
  have hji := StrictSorted.eq_of_key_eq hs hlt hi hat
  simp only [GetByAddress]
  rw [addressAtLeast_eq, hji]
  simp [hi]

end Lookup

theorem getByIndex_of_lt {vals : ValidatorSet} {i : Nat} (hi : i < vals.validators.length) :
    vals.GetByIndex i = some (vals.validators[i].address, vals.validators[i]) := by
  simp [GetByIndex, hi]

theorem getByIndex_eq_some {vals : ValidatorSet} {j : Int} {a : Address} {val : Validator}
    (h : vals.GetByIndex j = some (a, val)) :
    ∃ i : Nat, j = i ∧ ∃ hi : i < vals.validators.length, val = vals.validators[i] ∧
      a = val.address := by
  unfold GetByIndex at h
  split_ifs at h with hj
  have hlt : j.toNat < vals.validators.length := by omega
  simp only [getElem!_pos vals.validators j.toNat hlt, Option.some.injEq, Prod.mk.injEq] at h
  obtain ⟨rfl, rfl⟩ := h
  exact ⟨j.toNat, by omega, hlt, rfl, rfl⟩

theorem getByAddress_snd_eq_some {vals : ValidatorSet} {a : Address} {v : Validator}
    (h : (vals.GetByAddress a).2 = some v) : v ∈ vals.validators ∧ v.address = a := by
  simp only [GetByAddress] at h
  split_ifs at h with hf
  · cases h
    obtain ⟨hlt, hat⟩ := hf
    rw [getElem!_pos vals.validators _ hlt] at hat ⊢
    exact ⟨List.getElem_mem hlt, hat⟩

theorem getByAddress_snd_eq_none_iff {vals : ValidatorSet}
    (hs : StrictSorted Validator.address vals.validators) {a : Address} :
    (vals.GetByAddress a).2 = none ↔ a ∉ vals.validators.map Validator.address := by
  constructor
  · intro h ha
    obtain ⟨v, hv, rfl⟩ := List.mem_map.mp ha
    obtain ⟨i, hi, rfl⟩ := List.mem_iff_getElem.mp hv
    simp [getByAddress_getElem hs i hi] at h
  · intro ha
    simp [getByAddress_of_not_mem hs ha]

/-! ### The total voting power -/

theorem sumVotingPower_ok {s r : Int} {l : List Validator}
    (hs : 0 ≤ s ∧ s ≤ MaxTotalVotingPower)
    (hl : ∀ v ∈ l, 0 < v.votingPower ∧ v.votingPower ≤ MaxTotalVotingPower)
    (h : sumVotingPower s l = .ok r) : r = s + powerSum l ∧ r ≤ MaxTotalVotingPower := by
  induction l generalizing s with
  | nil =>
      simp only [sumVotingPower, Result.ok.injEq] at h
      subst h
      simpa using hs.2
  | cons v l ih =>
      have hv := hl v List.mem_cons_self
      have hclip : safeAddClip s v.votingPower = s + v.votingPower :=
        safeAddClip_of_inInt64 (by
          unfold InInt64 minInt64 maxInt64
          unfold MaxTotalVotingPower at hs hv
          omega)
      simp only [sumVotingPower, hclip] at h
      split_ifs at h with hmax
      obtain ⟨hr, hle⟩ := ih ⟨by omega, by omega⟩ (fun w hw => hl w (List.mem_cons_of_mem v hw)) h
      exact ⟨by rw [hr, powerSum_cons]; ring, hle⟩

theorem updateTotalVotingPower_ok {vals vals' : ValidatorSet}
    (hl : ∀ v ∈ vals.validators, 0 < v.votingPower ∧ v.votingPower ≤ MaxTotalVotingPower)
    (h : vals.updateTotalVotingPower = .ok vals') :
    vals' = { vals with totalVotingPower := powerSum vals.validators } ∧
      powerSum vals.validators ≤ MaxTotalVotingPower := by
  obtain ⟨sum, hsum, h⟩ := Result.bind_eq_ok.mp h
  obtain ⟨rfl, hle⟩ := sumVotingPower_ok (by decide) hl hsum
  simp only [Result.pure_eq, Result.ok.injEq] at h
  exact ⟨by rw [← h, zero_add], by simpa using hle⟩

theorem totalVotingPower_of_wellFormed {vals : ValidatorSet} (hw : vals.WellFormed) :
    vals.TotalVotingPower = .ok (powerSum vals.validators, vals) := by
  by_cases h0 : vals.totalVotingPower = 0
  · have hnil : vals.validators = [] := by
      by_contra hne
      exact absurd h0 (hw.totalVotingPower_pos hne).ne'
    obtain ⟨validators, proposer, total⟩ := vals
    dsimp only at h0 hnil
    subst h0 hnil
    rfl
  · rw [TotalVotingPower, if_neg h0, hw.cached]
    rfl

/-! ### The priority operations keep the stakes -/

theorem rescalePriorities_sameStake {vals vals' : ValidatorSet} {diffMax : Int}
    (h : vals.RescalePriorities diffMax = .ok vals') : vals.SameStake vals' := by
  unfold RescalePriorities at h
  split_ifs at h
  · cases h
    exact .refl _
  · obtain ⟨diff, -, h⟩ := Result.bind_eq_ok.mp h
    dsimp only at h
    split at h
    · split at h
      · cases h
      · cases h
        exact ⟨by simp, rfl⟩
    · cases h
      exact .refl _

theorem shiftByAvgProposerPriority_sameStake {vals vals' : ValidatorSet}
    (h : vals.shiftByAvgProposerPriority = .ok vals') : vals.SameStake vals' := by
  unfold shiftByAvgProposerPriority at h
  split_ifs at h
  obtain ⟨avg, -, h⟩ := Result.bind_eq_ok.mp h
  cases h
  exact ⟨by simp, rfl⟩

theorem mostPriorityLoop_getElem {L : List Validator} {r : Option (Nat × Validator)} {i : Nat}
    {l : List Validator} {res : Option (Nat × Validator)}
    (hr : ∀ j v, r = some (j, v) → L[j]? = some v) (hl : L.drop i = l)
    (h : mostPriorityLoop r i l = .ok res) : ∀ j v, res = some (j, v) → L[j]? = some v := by
  fun_induction mostPriorityLoop r i l with
  | case1 r i =>
      cases h
      exact hr
  | case2 i val rest ih =>
      have hval : L[i]? = some val := by rw [← Nat.add_zero i, ← List.getElem?_drop, hl]; rfl
      refine ih (fun j v hjv => ?_) (by rw [← List.tail_drop, hl]; rfl) h
      cases hjv
      exact hval
  | case3 r v i val rest ih =>
      have hval : L[i]? = some val := by rw [← Nat.add_zero i, ← List.getElem?_drop, hl]; rfl
      obtain ⟨keep, -, h⟩ := Result.bind_eq_ok.mp h
      refine ih keep (fun j w hjw => ?_) (by rw [← List.tail_drop, hl]; rfl) h
      split at hjw
      · exact hr j w hjw
      · cases hjw
        exact hval

theorem incrementProposerPriority_sameStake {vals vals' : ValidatorSet} {p : Validator}
    (h0 : vals.totalVotingPower ≠ 0) (h : vals.incrementProposerPriority = .ok (vals', p)) :
    vals.SameStake vals' := by
  unfold incrementProposerPriority at h
  obtain ⟨mostest?, hmost, h⟩ := Result.bind_eq_ok.mp h
  rcases mostest? with _ | ⟨i, mostest⟩
  · cases h
  · simp only [TotalVotingPower, if_neg h0, Result.pure_eq, Result.ok_bind,
      Result.ok.injEq, Prod.mk.injEq] at h
    obtain ⟨rfl, -⟩ := h
    have hi := mostPriorityLoop_getElem (by simp) List.drop_zero hmost i mostest rfl
    obtain ⟨hlt, hget⟩ := List.getElem?_eq_some_iff.mp hi
    refine ⟨?_, rfl⟩
    -- only the priority of the chosen validator changes
    rw [List.map_set, Validator.stake_setPriority, ← hget]
    refine List.ext_getElem (by simp) (fun j h₁ h₂ => ?_)
    rw [List.getElem_set]
    split
    · subst_vars
      simp
    · simp

theorem incrementRounds_sameStake {n : Nat} {vals vals' : ValidatorSet}
    {p p' : Option Validator} (h0 : vals.totalVotingPower ≠ 0)
    (h : incrementRounds n vals p = .ok (vals', p')) : vals.SameStake vals' := by
  induction n generalizing vals p with
  | zero =>
      simp only [incrementRounds, Result.ok.injEq, Prod.mk.injEq] at h
      obtain ⟨rfl, -⟩ := h
      exact .refl _
  | succ n ih =>
      rw [incrementRounds] at h
      obtain ⟨⟨vals₁, q⟩, h₁, h⟩ := Result.bind_eq_ok.mp h
      have hs := incrementProposerPriority_sameStake h0 h₁
      exact hs.trans (ih (hs.2 ▸ h0) h)

theorem IncrementProposerPriority_sameStake {vals vals' : ValidatorSet} {times : Int}
    (hw : vals.WellFormed) (h : vals.IncrementProposerPriority times = .ok vals') :
    vals.SameStake vals' := by
  unfold IncrementProposerPriority at h
  split_ifs at h with hempty
  have hne : vals.validators ≠ [] := by simpa [IsNilOrEmpty] using hempty
  rw [totalVotingPower_of_wellFormed hw, Result.ok_bind] at h
  obtain ⟨vals₁, h₁, h⟩ := Result.bind_eq_ok.mp h
  obtain ⟨vals₂, h₂, h⟩ := Result.bind_eq_ok.mp h
  obtain ⟨⟨vals₃, p⟩, h₃, h⟩ := Result.bind_eq_ok.mp h
  cases h
  have hs₂ := (rescalePriorities_sameStake h₁).trans (shiftByAvgProposerPriority_sameStake h₂)
  have hs₃ := hs₂.trans (incrementRounds_sameStake (hs₂.2 ▸ (hw.totalVotingPower_pos hne).ne') h₃)
  exact hs₃

theorem GetProposer_sameStake {vals vals' : ValidatorSet} {p : Option Validator}
    (h : vals.GetProposer = .ok (p, vals')) : vals.SameStake vals' := by
  unfold GetProposer at h
  split_ifs at h
  · cases h
    exact .refl _
  · dsimp only at h
    -- a nil pointer is filled by `findProposer`; then the pointer is read
    split at h
    · obtain ⟨q, -, h⟩ := Result.bind_eq_ok.mp h
      simp only [Result.pure_eq, Result.ok_bind] at h
      split at h
      · cases h
      · cases h
        exact ⟨rfl, rfl⟩
    · simp only [Result.pure_eq, Result.ok_bind] at h
      split at h
      · cases h
      · cases h
        exact .refl _

end ValidatorSet

end Dgrid.Types
