import Dgrid.Types.ValidatorSetInvariant

/-! What `UpdateWithChangeSet` does to a set, read as a map from address to voting power: each
change of power zero deletes its address, each other change sets its power, and the rest is
kept. A rejected change set leaves the set as it was, and the order of the changes does not
matter: `processChanges` sorts them, and a change list with a repeated address is rejected in
every order. A validator a change set adds enters below the old ones but can end above one of
them once the window is rescaled, and two calls of one round need not agree with one call of
two. -/

namespace Dgrid.Types
open Go KeyedList

/-- The voting power of the validator with address `a`, if there is one. -/
def powerOf (l : List Validator) (a : Address) : Option Int :=
  (l.find? (·.address = a)).map (·.votingPower)

/-- The map a change set asks for, over the map `old`. -/
def changedPower (old : Address → Option Int) (changes : List Validator) (a : Address) :
    Option Int :=
  match changes.find? (·.address = a) with
  | some c => if c.votingPower = 0 then none else some c.votingPower
  | none => old a

/-- A validator with its priority cleared: what the priority operations leave alone. -/
def Validator.erasePriority (v : Validator) : Validator := { v with proposerPriority := 0 }

theorem find?_address_of_mem {l : List Validator} (hl : (l.map Validator.address).Nodup)
    {x : Validator} (hx : x ∈ l) : l.find? (·.address = x.address) = some x := by
  induction l with
  | nil => cases hx
  | cons y l ih =>
      rw [List.map_cons, List.nodup_cons] at hl
      rcases List.mem_cons.mp hx with rfl | hx
      · simp
      · have hyx : y.address ≠ x.address := fun h => hl.1 (h ▸ List.mem_map_of_mem hx)
        rw [List.find?_cons_of_neg (by simpa using hyx), ih hl.2 hx]

theorem find?_address_eq_none {l : List Validator} {a : Address}
    (h : ∀ x ∈ l, x.address ≠ a) : l.find? (·.address = a) = none :=
  List.find?_eq_none.mpr (fun x hx => by simpa using h x hx)

theorem find?_address_congr {l₁ l₂ : List Validator} (h₁ : (l₁.map Validator.address).Nodup)
    (h₂ : (l₂.map Validator.address).Nodup) {a : Address}
    (h : ∀ x, x.address = a → (x ∈ l₁ ↔ x ∈ l₂)) :
    l₁.find? (·.address = a) = l₂.find? (·.address = a) := by
  by_cases hx : ∃ x ∈ l₁, x.address = a
  · obtain ⟨x, hx, rfl⟩ := hx
    rw [find?_address_of_mem h₁ hx, find?_address_of_mem h₂ ((h x rfl).mp hx)]
  · simp only [not_exists, not_and] at hx
    rw [find?_address_eq_none hx,
      find?_address_eq_none (fun y hy hya => hx y ((h y hya).mpr hy) hya)]

theorem powerOf_of_erasePriority {l l' : List Validator}
    (h : l'.map Validator.erasePriority = l.map Validator.erasePriority) :
    powerOf l' = powerOf l := by
  have key : ∀ m : List Validator, powerOf m = fun a =>
      ((m.map Validator.erasePriority).find? (·.address = a)).map (·.votingPower) := by
    intro m
    funext a
    rw [List.find?_map, Option.map_map]
    rfl
  rw [key l', key l, h]

theorem mem_of_erasePriority {l l' : List Validator}
    (h : l'.map Validator.erasePriority = l.map Validator.erasePriority) {v : Validator}
    (hv : v ∈ l) : ∃ v' ∈ l', v'.erasePriority = v.erasePriority := by
  have : v.erasePriority ∈ l'.map Validator.erasePriority := h ▸ List.mem_map_of_mem hv
  simpa using this

/-- Every priority of `l` sent through `g`: what rescaling and centring do to a list. -/
def mapPriority (g : Int → Int) (l : List Validator) : List Validator :=
  l.map fun v => { v with proposerPriority := g v.proposerPriority }

@[simp]
theorem mapPriority_id (l : List Validator) : mapPriority id l = l := by
  simp [mapPriority]

@[simp]
theorem erasePriority_mapPriority (g : Int → Int) (l : List Validator) :
    (mapPriority g l).map Validator.erasePriority = l.map Validator.erasePriority := by
  simp [mapPriority, Validator.erasePriority]

namespace ValidatorSet

theorem rescalePriorities_mapPriority {vals vals' : ValidatorSet} {diffMax : Int}
    (h : vals.RescalePriorities diffMax = .ok vals') :
    ∃ g, vals'.validators = mapPriority g vals.validators := by
  unfold RescalePriorities at h
  split_ifs at h
  · cases h
    exact ⟨id, by simp⟩
  · obtain ⟨diff, -, h⟩ := Result.bind_eq_ok.mp h
    dsimp only at h
    split at h
    · split at h
      · cases h
      · cases h
        exact ⟨fun p => wrap64 (p.tdiv _), rfl⟩
    · cases h
      exact ⟨id, by simp⟩

theorem shiftByAvgProposerPriority_mapPriority {vals vals' : ValidatorSet}
    (h : vals.shiftByAvgProposerPriority = .ok vals') :
    ∃ g, vals'.validators = mapPriority g vals.validators := by
  unfold shiftByAvgProposerPriority at h
  split_ifs at h
  obtain ⟨avg, -, h⟩ := Result.bind_eq_ok.mp h
  cases h
  exact ⟨fun p => safeSubClip p avg, rfl⟩

theorem updateTotalVotingPower_validators {vals vals' : ValidatorSet}
    (h : vals.updateTotalVotingPower = .ok vals') : vals'.validators = vals.validators := by
  obtain ⟨sum, -, h⟩ := Result.bind_eq_ok.mp h
  cases h
  rfl

theorem totalVotingPower_validators {vals vals' : ValidatorSet} {total : Int}
    (h : vals.TotalVotingPower = .ok (total, vals')) : vals'.validators = vals.validators := by
  unfold TotalVotingPower at h
  split_ifs at h
  · obtain ⟨vals₁, h₁, h⟩ := Result.bind_eq_ok.mp h
    cases h
    exact updateTotalVotingPower_validators h₁
  · cases h
    rfl

/-! ### Accepted changes as a map -/

theorem processChanges_nodup {changes : List Validator} {r : List Validator × List Validator}
    (h : processChanges changes = .ok r) : (changes.map Validator.address).Nodup := by
  have hs := (processChangesLoop_sorted (sortSort_byAddress changes) h).1
  exact ((sortSort_perm _ changes).map Validator.address).nodup_iff.mp hs.nodup_keys

theorem processChanges_mem {changes ups dels : List Validator}
    (h : processChanges changes = .ok (ups, dels)) : ∀ x ∈ ups ++ dels, x ∈ changes := by
  obtain ⟨-, rfl, rfl⟩ := processChangesLoop_ok h
  intro x hx
  rcases List.mem_append.mp hx with hx | hx <;>
    exact (sortSort_perm ValidatorsByAddress.Less changes).mem_iff.mp (List.mem_filter.mp hx).1

theorem processChanges_not_named {changes ups dels : List Validator}
    (h : processChanges changes = .ok (ups, dels)) {a : Address}
    (ha : a ∉ changes.map Validator.address) :
    a ∉ ups.map Validator.address ∧ a ∉ dels.map Validator.address := by
  have hmem := processChanges_mem h
  refine ⟨fun hu => ?_, fun hd => ?_⟩
  · obtain ⟨x, hx, rfl⟩ := List.mem_map.mp hu
    exact ha (List.mem_map_of_mem (hmem x (List.mem_append_left _ hx)))
  · obtain ⟨x, hx, rfl⟩ := List.mem_map.mp hd
    exact ha (List.mem_map_of_mem (hmem x (List.mem_append_right _ hx)))

theorem powerOf_applied {V : List Validator} (hV : StrictSorted Validator.address V)
    {changes ups dels : List Validator} (hpc : processChanges changes = .ok (ups, dels))
    {U : List Validator} (hU : StrictSorted Validator.address U)
    (hUst : U.map Validator.stake = ups.map Validator.stake) (a : Address) :
    powerOf (without Validator.address (mergeByKey Validator.address V U) dels) a =
      changedPower (powerOf V) changes a := by
  obtain ⟨-, hdels, -, hdisj⟩ := processChanges_ok hpc
  obtain ⟨-, hups, hdels'⟩ := processChangesLoop_ok hpc
  have hperm := sortSort_perm ValidatorsByAddress.Less changes
  have hF := (mergeByKey_sorted hV hU).without dels
  have hUaddr := map_address_of_stake hUst
  unfold changedPower
  cases hc : changes.find? (·.address = a) with
  | some c =>
      have hca : c.address = a := by simpa using List.find?_some hc
      have hcs : c ∈ sortSort ValidatorsByAddress.Less changes :=
        hperm.mem_iff.mpr (List.mem_of_find?_eq_some hc)
      subst hca
      dsimp only
      split_ifs with h0
      · -- a removal: nothing is left at its address
        have hcd : c.address ∈ dels.map Validator.address :=
          List.mem_map_of_mem (hdels' ▸ List.mem_filter.mpr ⟨hcs, by simpa using h0⟩)
        rw [powerOf, find?_address_eq_none (fun x hx hxa => (mem_without.mp hx).2 (hxa ▸ hcd))]
        rfl
      · -- an update: its entry in the merge, which no removal touches
        have hcu : c ∈ ups := hups ▸ List.mem_filter.mpr ⟨hcs, by simpa using h0⟩
        obtain ⟨u, hu, hust⟩ := List.mem_map.mp (hUst ▸ List.mem_map_of_mem hcu :
          c.stake ∈ U.map Validator.stake)
        have hua : u.address = c.address := congrArg Prod.fst hust
        have huF : u ∈ without Validator.address (mergeByKey Validator.address V U) dels :=
          mem_without.mpr ⟨(mem_mergeByKey_iff hV hU).mpr (.inr hu), fun hud => by
            obtain ⟨d, hd, hda⟩ := List.mem_map.mp hud
            exact hdisj d hd (hda.trans hua ▸ List.mem_map_of_mem hcu)⟩
        rw [powerOf, ← hua, find?_address_of_mem hF.nodup_keys huF]
        exact congrArg some (congrArg Prod.snd hust)
  | none =>
      -- no change names `a`: the validators at `a` are the old ones
      obtain ⟨hnoU, hnoD⟩ := processChanges_not_named hpc (fun hm => by
        obtain ⟨c, hc', hca⟩ := List.mem_map.mp hm
        exact absurd (List.find?_eq_none.mp hc c hc') (by simpa using hca))
      rw [← hUaddr] at hnoU
      refine congrArg (Option.map _) (find?_address_congr hF.nodup_keys hV.nodup_keys ?_)
      intro x hxa
      subst hxa
      rw [mem_without, mem_mergeByKey_iff hV hU, mem_without]
      constructor
      · rintro ⟨⟨hx, -⟩ | hx, -⟩
        · exact hx
        · exact absurd (List.mem_map_of_mem hx) hnoU
      · intro hx
        exact ⟨.inl ⟨hx, hnoU⟩, hnoD⟩

theorem updateWithChangeSet_validators {vals vals' : ValidatorSet} {changes : List Validator}
    {allowDeletes : Bool} (hw : vals.WellFormed)
    (h : vals.updateWithChangeSet changes allowDeletes = .ok (none, vals')) :
    (vals' = vals ∧ changes = []) ∨ ∃ ups dels T, processChanges changes = .ok (ups, dels) ∧
      vals'.validators.map Validator.erasePriority = (without Validator.address
        (mergeByKey Validator.address vals.validators (computeNewPriorities ups vals T)) dels).map
          Validator.erasePriority := by
  rcases updateWithChangeSet_cases hw h with ⟨hv, hnil⟩ |
    ⟨-, ups, dels, T, vals₁, vals₂, total, vals₃, vals₄, hpc, hsub, -, h₁, h₂, h₃, h₄, h₅⟩
  · exact .inl ⟨hv, hnil rfl⟩
  · refine .inr ⟨ups, dels, T, hpc, ?_⟩
    obtain ⟨g₁, hg₁⟩ := rescalePriorities_mapPriority h₄
    obtain ⟨g₂, hg₂⟩ := shiftByAvgProposerPriority_mapPriority h₅
    rw [hg₂, erasePriority_mapPriority, hg₁, erasePriority_mapPriority,
      totalVotingPower_validators h₃, updateTotalVotingPower_validators h₂,
      applyUpdates_applyRemovals hw hpc hsub h₁]

/-- An accepted change set on a reachable set leaves the validators sorted by address with the
voting powers the changes ask for, keeps every validator that no change names, and leaves a
total voting power in `(0, MaxTotalVotingPower]`. -/
theorem reachable_updateWithChangeSet_powers {vals vals' : ValidatorSet} (h : vals.Reachable)
    {changes : List Validator} (hu : vals.UpdateWithChangeSet changes = .ok (none, vals')) :
    StrictSorted Validator.address vals'.validators ∧
      powerOf vals'.validators = changedPower (powerOf vals.validators) changes ∧
      (∀ v ∈ vals.validators, v.address ∉ changes.map Validator.address →
        ∃ v' ∈ vals'.validators, v'.address = v.address ∧ v'.votingPower = v.votingPower ∧
          v'.pubKey = v.pubKey) ∧
      vals'.TotalVotingPower = .ok (powerSum vals'.validators, vals') ∧
      0 < powerSum vals'.validators ∧ powerSum vals'.validators ≤ MaxTotalVotingPower := by
  have hi := h.inv
  have hi' : vals'.Inv := (show vals'.Reachable from .step h (.update changes none hu)).inv
  refine ⟨hi'.sorted, ?_, ?_, totalVotingPower_of_wellFormed hi'.toWellFormed,
    powerSum_pos hi'.nonempty (fun v hv => (hi'.powers v hv).1), hi'.sum_le⟩
  all_goals rcases updateWithChangeSet_validators hi.toWellFormed hu with
    ⟨rfl, rfl⟩ | ⟨ups, dels, T, hpc, herase⟩
  · funext a
    rfl
  · have hU := computeNewPriorities_sorted (processChanges_ok hpc).1 vals T
    funext a
    rw [powerOf_of_erasePriority herase,
      powerOf_applied hi.sorted hpc hU (computeNewPriorities_stake ups vals T)]
  · exact fun v hv _ => ⟨v, hv, rfl, rfl, rfl⟩
  · intro v hv hnot
    obtain ⟨hnoU, hnoD⟩ := processChanges_not_named hpc hnot
    rw [← map_address_of_stake (computeNewPriorities_stake ups vals T)] at hnoU
    have hU := computeNewPriorities_sorted (processChanges_ok hpc).1 vals T
    -- a validator no change names survives the merge and the removals
    have hvF : v ∈ without Validator.address
        (mergeByKey Validator.address vals.validators (computeNewPriorities ups vals T)) dels :=
      mem_without.mpr ⟨(mem_mergeByKey_iff hi.sorted hU).mpr (.inl (mem_without.mpr ⟨hv, hnoU⟩)),
        hnoD⟩
    obtain ⟨v', hv', heq⟩ := mem_of_erasePriority herase hvF
    simp only [Validator.erasePriority, Validator.mk.injEq] at heq
    exact ⟨v', hv', heq.1, heq.2.2.1, heq.2.1⟩

/-- A set made from one validator of power 10, given a second validator. -/
theorem reachable_updateWithChangeSet_powers_add :
    let vals : ValidatorSet := ⟨[⟨⟨[1]⟩, [], 10, 0⟩], some (.member ⟨[1]⟩), 10⟩
    let changes : List Validator := [⟨⟨[2]⟩, [], 5, 0⟩]
    let vals' : ValidatorSet := ⟨[⟨⟨[1]⟩, [], 10, 8⟩, ⟨⟨[2]⟩, [], 5, -8⟩], some (.member ⟨[1]⟩), 15⟩
    StrictSorted Validator.address vals'.validators ∧
      powerOf vals'.validators = changedPower (powerOf vals.validators) changes ∧
      (∀ v ∈ vals.validators, v.address ∉ changes.map Validator.address →
        ∃ v' ∈ vals'.validators, v'.address = v.address ∧ v'.votingPower = v.votingPower ∧
          v'.pubKey = v.pubKey) ∧
      vals'.TotalVotingPower = .ok (powerSum vals'.validators, vals') ∧
      0 < powerSum vals'.validators ∧ powerSum vals'.validators ≤ MaxTotalVotingPower :=
  reachable_updateWithChangeSet_powers (.init ⟨[⟨⟨[1]⟩, [], 10, 0⟩], by simp, by decide +kernel⟩)
    (by decide +kernel)

/-- A rejected change set leaves a reachable set exactly as it was. -/
theorem reachable_updateWithChangeSet_atomic {vals vals' : ValidatorSet} (h : vals.Reachable)
    {changes : List Validator} {err : ChangeSetError}
    (hu : vals.UpdateWithChangeSet changes = .ok (some err, vals')) : vals' = vals :=
  updateWithChangeSet_error h.inv.toWellFormed hu

/-- A change of negative power, on a set made from one validator. -/
theorem reachable_updateWithChangeSet_atomic_negative :
    let vals : ValidatorSet := ⟨[⟨⟨[1]⟩, [], 10, 0⟩], some (.member ⟨[1]⟩), 10⟩
    vals.UpdateWithChangeSet [⟨⟨[2]⟩, [], -1, 0⟩] =
        .ok (some (.negativeVotingPower ⟨⟨[2]⟩, [], -1, 0⟩), vals) ∧
      vals = vals :=
  ⟨by decide +kernel, @reachable_updateWithChangeSet_atomic
    ⟨[⟨⟨[1]⟩, [], 10, 0⟩], some (.member ⟨[1]⟩), 10⟩ ⟨[⟨⟨[1]⟩, [], 10, 0⟩], some (.member ⟨[1]⟩), 10⟩
    (.init ⟨[⟨⟨[1]⟩, [], 10, 0⟩], by simp, by decide +kernel⟩)
    [⟨⟨[2]⟩, [], -1, 0⟩] (.negativeVotingPower ⟨⟨[2]⟩, [], -1, 0⟩) (by decide +kernel)⟩

theorem sortSort_byAddress_of_perm {c p : List Validator} (hc : (c.map Validator.address).Nodup)
    (hp : c.Perm p) : sortSort ValidatorsByAddress.Less c = sortSort ValidatorsByAddress.Less p := by
  have strict : ∀ l : List Validator, (l.map Validator.address).Nodup →
      (sortSort ValidatorsByAddress.Less l).Pairwise (fun a b => a.address < b.address) := by
    intro l hl
    have hn := ((sortSort_perm ValidatorsByAddress.Less l).map Validator.address).nodup_iff.mpr hl
    exact ((sortSort_byAddress l).and (List.pairwise_map.mp hn)).imp
      (fun hab => lt_of_le_of_ne hab.1 hab.2)
  exact List.Perm.eq_of_pairwise (fun _ _ _ _ h₁ h₂ => absurd (h₁.trans h₂) (lt_irrefl _))
    (strict c hc) (strict p ((hp.map Validator.address).nodup_iff.mp hc))
    ((sortSort_perm _ c).trans (hp.trans (sortSort_perm _ p).symm))

theorem processChanges_of_sorted {changes : List Validator}
    (h : changes.Pairwise (fun a b => a.address < b.address)) :
    processChanges changes = processChangesLoop changes ⟨[]⟩ changes := by
  have hs : sortSort ValidatorsByAddress.Less changes = changes := by
    apply List.mergeSort_of_pairwise
    refine h.imp (fun hab => ?_)
    simp [ValidatorsByAddress.less_eq, not_lt.mpr hab.le]
  simp only [processChanges, hs]

/-- The order of the changes does not matter: two orders of one change list give the same
result, or are both rejected and leave the set as it was. -/
theorem updateWithChangeSet_perm (vals : ValidatorSet) {c p : List Validator} (hp : c.Perm p) :
    vals.UpdateWithChangeSet c = vals.UpdateWithChangeSet p ∨
      ∃ e₁ e₂, vals.UpdateWithChangeSet c = .ok (some e₁, vals) ∧
        vals.UpdateWithChangeSet p = .ok (some e₂, vals) := by
  by_cases hc : (c.map Validator.address).Nodup
  · left
    simp only [UpdateWithChangeSet, updateWithChangeSet, processChanges,
      sortSort_byAddress_of_perm hc hp, hp.length_eq]
  · right
    -- a repeated address is rejected in every order
    have herr : ∀ l : List Validator, l.Perm c →
        ∃ e, vals.UpdateWithChangeSet l = .ok (some e, vals) := by
      intro l hl
      have hlen : l.length ≠ 0 := by
        intro h0
        rw [hl.length_eq, List.length_eq_zero_iff] at h0
        exact hc (by simp [h0])
      cases hpc : processChanges l with
      | ok r => exact absurd ((hl.map _).nodup_iff.mp (processChanges_nodup hpc)) hc
      | error e => exact ⟨e, by simp [UpdateWithChangeSet, updateWithChangeSet, hlen, hpc]⟩
    obtain ⟨e₁, h₁⟩ := herr c (List.Perm.refl c)
    obtain ⟨e₂, h₂⟩ := herr p hp.symm
    exact ⟨e₁, e₂, h₁, h₂⟩

/-- Two orders of two changes. -/
theorem updateWithChangeSet_perm_swap :
    let vals : ValidatorSet := ⟨[⟨⟨[1]⟩, [], 10, 0⟩], some (.member ⟨[1]⟩), 10⟩
    let c : List Validator := [⟨⟨[2]⟩, [], 5, 0⟩, ⟨⟨[1]⟩, [], 0, 0⟩]
    let p : List Validator := [⟨⟨[1]⟩, [], 0, 0⟩, ⟨⟨[2]⟩, [], 5, 0⟩]
    c.Perm p ∧ (vals.UpdateWithChangeSet c = vals.UpdateWithChangeSet p ∨
      ∃ e₁ e₂, vals.UpdateWithChangeSet c = .ok (some e₁, vals) ∧
        vals.UpdateWithChangeSet p = .ok (some e₂, vals)) :=
  ⟨List.Perm.swap _ _ _, updateWithChangeSet_perm _ (List.Perm.swap _ _ _)⟩

/-! ### Priorities across calls -/

/-- Two validators of power 4 at priorities `-4` and `4`, both lowered to power 1 beside a new
validator: the updated total is 3, the new one enters at `-3`, and after rescaling by 2 and
centring it stands at `0`, above the first old validator at `-1`. -/
theorem updateWithChangeSet_new_above_old :
    let vals : ValidatorSet := ⟨[⟨⟨[0]⟩, [], 4, -4⟩, ⟨⟨[1]⟩, [], 4, 4⟩], some (.member ⟨[0]⟩), 8⟩
    vals.Reachable ∧
      vals.UpdateWithChangeSet [⟨⟨[0]⟩, [], 1, 0⟩, ⟨⟨[1]⟩, [], 1, 0⟩, ⟨⟨[2]⟩, [], 1, 0⟩] =
        .ok (none, ⟨[⟨⟨[0]⟩, [], 1, -1⟩, ⟨⟨[1]⟩, [], 1, 3⟩, ⟨⟨[2]⟩, [], 1, 0⟩],
          some (.detached ⟨⟨[0]⟩, [], 4, -4⟩), 3⟩) := by
  refine ⟨.init ⟨[⟨⟨[0]⟩, [], 4, 0⟩, ⟨⟨[1]⟩, [], 4, 0⟩], by simp, ?_⟩, ?_⟩
  · unfold NewValidatorSet updateWithChangeSet
    rw [processChanges_of_sorted (by decide)]
    decide +kernel
  · unfold UpdateWithChangeSet updateWithChangeSet
    rw [processChanges_of_sorted (by decide)]
    decide +kernel

/-- A reachable set whose first call leaves a window of 11 over a total of 5: one round and
one round rescale in between, two rounds at once do not. -/
theorem incrementProposerPriority_split_differs :
    let vals : ValidatorSet :=
      ⟨[⟨⟨[0]⟩, [], 2, 4⟩, ⟨⟨[1]⟩, [], 2, 4⟩, ⟨⟨[2]⟩, [], 1, -6⟩], some (.member ⟨[0]⟩), 5⟩
    vals.Reachable ∧
      (vals.IncrementProposerPriority 1 >>= fun v => v.IncrementProposerPriority 1) =
        .ok ⟨[⟨⟨[0]⟩, [], 2, 2⟩, ⟨⟨[1]⟩, [], 2, 0⟩, ⟨⟨[2]⟩, [], 1, -1⟩], some (.member ⟨[1]⟩), 5⟩ ∧
      vals.IncrementProposerPriority 2 =
        .ok ⟨[⟨⟨[0]⟩, [], 2, 3⟩, ⟨⟨[1]⟩, [], 2, 3⟩, ⟨⟨[2]⟩, [], 1, -4⟩], some (.member ⟨[1]⟩), 5⟩ :=
  ⟨reachable_three, by decide +kernel, by decide +kernel⟩

end ValidatorSet

end Dgrid.Types
