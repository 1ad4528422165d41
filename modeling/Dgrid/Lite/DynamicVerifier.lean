import Dgrid.Lite.Commit
import Dgrid.Lib.Transition
import Dgrid.Types.Amino

/-! The bisection of the light client (lite/dynamic_verifier.go). `updateToHeight h` fetches the
source's full commit at `h` and, until the trusted store holds `h`, checks it against the
latest trusted commit with `VerifyFutureCommit`; on `ErrTooMuchChange` it first brings the store
to the midpoint. The source is any provider. The trusted store is what a `DBProvider` holds:
full commits, one per height, `LatestFullCommit` giving the highest in a range. `ValidateFull`
is a parameter, `FullCommit.ValidateFull` in `Verify`. A run has a number of rounds; one that has
not returned within them gives `none`. -/

namespace Dgrid.Lite

open Go Dgrid.Types

/-- The trusted store: the full commits a `DBProvider` without a limit holds, one per height. The
provider keeps headers and validator sets under keys of their heights; here each saved commit is
kept whole. -/
structure TrustedStore where
  commits : List FullCommit
  heights_nodup : (commits.map FullCommit.Height).Nodup

/-- The commit of greatest height among `fcs`, the first of them. -/
def highest : List FullCommit → Option FullCommit
  | [] => none
  | fc :: rest =>
    match highest rest with
    | none => some fc
    | some best => if fc.Height < best.Height then some best else some fc

theorem highest_spec {fcs : List FullCommit} {m : FullCommit} (h : highest fcs = some m) :
    m ∈ fcs ∧ ∀ c ∈ fcs, c.Height ≤ m.Height := by
  induction fcs generalizing m with
  | nil => cases h
  | cons fc rest ih =>
    simp only [highest] at h
    cases hr : highest rest with
    | none =>
      rw [hr] at h
      cases h
      -- `rest` is empty: `highest` of a non-empty list is some commit
      cases rest with
      | nil => simp
      | cons c cs =>
        simp only [highest] at hr
        split at hr <;> (try split at hr) <;> cases hr
    | some best =>
      simp only [hr] at h
      obtain ⟨hbest, hle⟩ := ih hr
      by_cases hlt : fc.Height < best.Height
      · rw [if_pos hlt, Option.some.injEq] at h
        subst h
        refine ⟨List.mem_cons_of_mem _ hbest, fun c hc => ?_⟩
        rcases List.mem_cons.mp hc with rfl | hc
        · omega
        · exact hle c hc
      · rw [if_neg hlt, Option.some.injEq] at h
        subst h
        refine ⟨List.mem_cons_self, fun c hc => ?_⟩
        rcases List.mem_cons.mp hc with rfl | hc
        · exact le_refl _
        · have := hle c hc
          omega

namespace TrustedStore

/-- `LatestFullCommit(chainID, minHeight, maxHeight)`: the highest commit in the range, a bound
of `0` meaning `1` below and `MaxInt64` above. -/
def LatestFullCommit (store : TrustedStore) (minHeight maxHeight : Int) :
    Except LiteError FullCommit :=
  let minHeight := if minHeight ≤ 0 then 1 else minHeight
  let maxHeight := if maxHeight = 0 then maxInt64 else maxHeight
  match highest (store.commits.filter fun fc => minHeight ≤ fc.Height ∧ fc.Height ≤ maxHeight) with
  | some fc => .ok fc
  | none => .error .commitNotFound

/-- `SaveFullCommit(fc)`: the commit replaces any stored at its height. -/
def SaveFullCommit (store : TrustedStore) (fc : FullCommit) : TrustedStore where
  commits := fc :: store.commits.filter fun c => c.Height ≠ fc.Height
  heights_nodup := by
    rw [List.map_cons, List.nodup_cons]
    refine ⟨?_, (List.filter_sublist.map _).nodup store.heights_nodup⟩
    simp

theorem LatestFullCommit_spec {store : TrustedStore} {minHeight maxHeight : Int} {fc : FullCommit}
    (h : store.LatestFullCommit minHeight maxHeight = .ok fc) :
    fc ∈ store.commits ∧ (if minHeight ≤ 0 then 1 else minHeight) ≤ fc.Height ∧
      fc.Height ≤ (if maxHeight = 0 then maxInt64 else maxHeight) ∧
      ∀ c ∈ store.commits, (if minHeight ≤ 0 then 1 else minHeight) ≤ c.Height →
        c.Height ≤ (if maxHeight = 0 then maxInt64 else maxHeight) → c.Height ≤ fc.Height := by
  simp only [LatestFullCommit] at h
  split at h
  · rename_i m hm
    cases h
    obtain ⟨hmem, hle⟩ := highest_spec hm
    obtain ⟨hfc, hrange⟩ := List.mem_filter.mp hmem
    simp only [decide_eq_true_eq] at hrange
    exact ⟨hfc, hrange.1, hrange.2,
      fun c hc hlo hhi => hle c (List.mem_filter.mpr ⟨hc, by simp [hlo, hhi]⟩)⟩
  · cases h

/-- Lowering the upper bound of a range down to the commit found there finds it again. -/
theorem LatestFullCommit_of_le {store : TrustedStore} {minHeight maxHeight bound : Int}
    {fc : FullCommit} (h : store.LatestFullCommit minHeight maxHeight = .ok fc)
    (hpos : 0 < bound) (hle : bound ≤ maxHeight) (hfc : fc.Height ≤ bound) :
    store.LatestFullCommit minHeight bound = .ok fc := by
  obtain ⟨-, -, -, hmax⟩ := LatestFullCommit_spec h
  rw [if_neg (show maxHeight ≠ 0 by omega)] at hmax
  -- no stored commit of the wider range lies above `fc`, so both ranges hold the same commits
  have hsame : store.commits.filter (fun c =>
        (if minHeight ≤ 0 then 1 else minHeight) ≤ c.Height ∧ c.Height ≤ bound) =
      store.commits.filter (fun c =>
        (if minHeight ≤ 0 then 1 else minHeight) ≤ c.Height ∧ c.Height ≤ maxHeight) := by
    refine List.filter_congr fun c hc => ?_
    by_cases hlo : (if minHeight ≤ 0 then 1 else minHeight) ≤ c.Height
    · have := hmax c hc hlo
      by_cases hhi : c.Height ≤ maxHeight
      · simp only [hlo, hhi, true_and, decide_true, decide_eq_true_eq]
        omega
      · simp only [hlo, hhi, true_and, decide_false, decide_eq_false_iff_not]
        omega
    · simp [hlo]
  simp only [LatestFullCommit, if_neg (show bound ≠ 0 by omega),
    if_neg (show maxHeight ≠ 0 by omega)] at h ⊢
  rw [hsame]
  exact h

@[simp] theorem mem_SaveFullCommit {store : TrustedStore} {fc c : FullCommit} :
    c ∈ (store.SaveFullCommit fc).commits ↔ c = fc ∨ (c ∈ store.commits ∧ c.Height ≠ fc.Height) := by
  simp [SaveFullCommit]

end TrustedStore

section Verifier
variable (cdc : Codec) (crypto : Crypto) (chainID : String) (source : Provider)
  (ValidateFull : FullCommit → Result (Option LiteError))

/-- `dv.verifyAndSave(trustedFC, sourceFC)`: the error, the store, and the source's commit whose
validator set `VerifyFutureCommit` has left its total cached in. -/
def verifyAndSave (trusted : TrustedStore) (trustedFC sourceFC : FullCommit) :
    Result (Option LiteError × TrustedStore × FullCommit) :=
  if trustedFC.Height ≥ sourceFC.Height then .panic "should not happen"
  else do
    let (err, _, newSet) ← trustedFC.NextValidators.VerifyFutureCommit cdc crypto
      sourceFC.Validators chainID sourceFC.SignedHeader.Commit.BlockID sourceFC.SignedHeader.Height
      sourceFC.SignedHeader.Commit
    let sourceFC := { sourceFC with Validators := newSet }
    match err with
    | some err => pure (some (.futureCommit err), trusted, sourceFC)
    | none => pure (none, trusted.SaveFullCommit sourceFC, sourceFC)

/-- What a call returns: `none` when its rounds ran out, else the call's outcome with the store. -/
abbrev Outcome := Option (Result (Except LiteError FullCommit × TrustedStore))

mutual

/-- `dv.updateToHeight(h)`, with `fuel` rounds. -/
def updateToHeight : Nat → TrustedStore → Int → Outcome
  | 0, _, _ => none
  | fuel + 1, trusted, h =>
    match source.LatestFullCommit chainID h h with
    | .error err => some (.ok (.error err, trusted))
    | .ok sourceFC =>
      if sourceFC.Height ≠ h then some (.ok (.error .commitNotFound, trusted))
      else match ValidateFull sourceFC with
        | .panic msg => some (.panic msg)
        | .ok (some err) => some (.ok (.error err, trusted))
        | .ok none => updateLoop fuel trusted h sourceFC

/-- The loop `FOR_LOOP` of `updateToHeight`, one round a step. -/
def updateLoop : Nat → TrustedStore → Int → FullCommit → Outcome
  | 0, _, _, _ => none
  | fuel + 1, trusted, h, sourceFC =>
    match trusted.LatestFullCommit 1 h with
    | .error err => some (.ok (.error err, trusted))
    | .ok trustedFC =>
      if trustedFC.Height = h then some (.ok (.ok trustedFC, trusted))
      else match verifyAndSave cdc crypto chainID trusted trustedFC sourceFC with
        | .panic msg => some (.panic msg)
        | .ok (none, trusted, sourceFC) => some (.ok (.ok sourceFC, trusted))
        | .ok (some err, trusted, sourceFC) =>
          if IsErrTooMuchChange err then
            let start := trustedFC.Height
            let end_ := sourceFC.Height
            if ¬ start < end_ then some (.panic "should not happen")
            else
              let mid := (wrap64 (start + end_)).tdiv 2
              match updateToHeight fuel trusted mid with
              | none => none
              | some (.panic msg) => some (.panic msg)
              | some (.ok (.error err, trusted)) => some (.ok (.error err, trusted))
              | some (.ok (.ok _, trusted)) => updateLoop fuel trusted h sourceFC
          else some (.ok (.error err, trusted))

end

/-! ### The trusted store grows along trust chains -/

/-- `VerifyFutureCommit` from `trustedFC`'s next validator set accepted the commit `fc` carries,
for a lower `trustedFC`; `fc` holds the validator set as the call left it. -/
def Accepts (trustedFC fc : FullCommit) : Prop :=
  trustedFC.Height < fc.Height ∧ ∃ vals oldVals,
    trustedFC.NextValidators.VerifyFutureCommit cdc crypto vals chainID
      fc.SignedHeader.Commit.BlockID fc.Height fc.SignedHeader.Commit = .ok (none, oldVals, fc.Validators)

/-- The commits on a trust chain from `base`: those of `base`, and those a commit on a chain
accepted. -/
def Chained (base : List FullCommit) : FullCommit → Prop :=
  Transition.Reachable (· ∈ base) (Accepts cdc crypto chainID)

/-- A run took the store from `store` to `store'`: no commit was dropped, and every commit is
reachable from those of `store` by steps of `R`. -/
structure Grows (R : FullCommit → FullCommit → Prop) (store store' : TrustedStore) : Prop where
  keeps : ∀ fc ∈ store.commits, fc ∈ store'.commits
  chained : ∀ fc ∈ store'.commits, Transition.Reachable (· ∈ store.commits) R fc

theorem Grows.refl (R : FullCommit → FullCommit → Prop) (store : TrustedStore) : Grows R store store :=
  ⟨fun _ h => h, fun _ h => .init h⟩

theorem Grows.trans {R : FullCommit → FullCommit → Prop} {s₁ s₂ s₃ : TrustedStore}
    (h₁ : Grows R s₁ s₂) (h₂ : Grows R s₂ s₃) : Grows R s₁ s₃ := by
  refine ⟨fun fc hfc => h₂.keeps fc (h₁.keeps fc hfc), fun fc hfc => ?_⟩
  exact Transition.Reachable.rebase h₁.chained (h₂.chained fc hfc)

theorem Grows.mono {R R' : FullCommit → FullCommit → Prop} (hR : ∀ a b, R a b → R' a b)
    {store store' : TrustedStore} (h : Grows R store store') : Grows R' store store' := by
  refine ⟨h.keeps, fun fc hfc => ?_⟩
  exact Transition.Reachable.map id (fun _ h => h) (fun a b _ hab => .inl (hR a b hab)) (h.chained fc hfc)

theorem Grows.save {R : FullCommit → FullCommit → Prop} {store : TrustedStore} {t fc : FullCommit}
    (ht : t ∈ store.commits) (hacc : R t fc) (hfree : ∀ c ∈ store.commits, c.Height ≠ fc.Height) :
    Grows R store (store.SaveFullCommit fc) := by
  refine ⟨fun c hc => TrustedStore.mem_SaveFullCommit.mpr (.inr ⟨hc, hfree c hc⟩), ?_⟩
  intro c hc
  rcases TrustedStore.mem_SaveFullCommit.mp hc with rfl | ⟨hc, -⟩
  · exact .step (.init ht) hacc
  · exact .init hc

theorem verifyAndSave_ok {store store' : TrustedStore} {t s s' : FullCommit}
    {err : Option LiteError}
    (hv : verifyAndSave cdc crypto chainID store t s = .ok (err, store', s')) :
    t.Height < s.Height ∧ s'.SignedHeader = s.SignedHeader ∧
      ((err = none ∧ store' = store.SaveFullCommit s' ∧ Accepts cdc crypto chainID t s') ∨
        (∃ e, err = some (.futureCommit e) ∧ store' = store)) := by
  unfold verifyAndSave at hv
  split at hv
  · cases hv
  · rename_i hlt
    obtain ⟨⟨e, oldVals, newSet⟩, hvfc, hrest⟩ := Result.bind_eq_ok.mp hv
    refine ⟨by omega, ?_⟩
    cases e with
    | none =>
      simp only [Result.pure_eq, Result.ok.injEq, Prod.mk.injEq] at hrest
      obtain ⟨rfl, rfl, rfl⟩ := hrest
      exact ⟨rfl, .inl ⟨rfl, rfl, lt_of_not_ge hlt, s.Validators, oldVals, hvfc⟩⟩
    | some e =>
      simp only [Result.pure_eq, Result.ok.injEq, Prod.mk.injEq] at hrest
      obtain ⟨rfl, rfl, rfl⟩ := hrest
      exact ⟨rfl, .inr ⟨e, rfl, rfl⟩⟩

theorem free_of_latest {store : TrustedStore} {h : Int} {t : FullCommit}
    (hl : store.LatestFullCommit 1 h = .ok t) (hlt : t.Height < h) :
    ∀ c ∈ store.commits, c.Height ≠ h := by
  obtain ⟨-, hlo, -, hmax⟩ := TrustedStore.LatestFullCommit_spec hl
  simp only [Int.reduceLE, if_false] at hlo hmax
  have hh : h ≠ 0 := by omega
  intro c hc hch
  have := hmax c hc (by omega) (by rw [if_neg hh]; omega)
  omega

theorem updateToHeight_succ {fuel : Nat} {store store' : TrustedStore} {h : Int}
    {r : Except LiteError FullCommit}
    (hrun : updateToHeight cdc crypto chainID source ValidateFull (fuel + 1) store h =
      some (.ok (r, store'))) :
    (∃ e, r = .error e ∧ store' = store) ∨
      ∃ sfc, sfc.Height = h ∧
        updateLoop cdc crypto chainID source ValidateFull fuel store h sfc = some (.ok (r, store')) := by
  rw [updateToHeight] at hrun
  split at hrun
  · cases hrun
    exact .inl ⟨_, rfl, rfl⟩
  · rename_i sfc _
    split at hrun
    · cases hrun
      exact .inl ⟨_, rfl, rfl⟩
    · rename_i hh
      split at hrun
      · cases hrun
      · cases hrun
        exact .inl ⟨_, rfl, rfl⟩
      · exact .inr ⟨sfc, not_not.mp hh, hrun⟩

/-- What one round of the loop can do: return with the store unchanged (a commit it returns is
the stored one at `h`), save the source's commit accepted from a stored one, or bring the store
to a midpoint first and fail or go on. -/
theorem updateLoop_succ {fuel : Nat} {store store' : TrustedStore} {h : Int} {sfc : FullCommit}
    {r : Except LiteError FullCommit} (hs : sfc.Height = h)
    (hrun : updateLoop cdc crypto chainID source ValidateFull (fuel + 1) store h sfc =
      some (.ok (r, store'))) :
    (store' = store ∧ ∀ fc, r = .ok fc → fc.Height = h ∧ fc ∈ store.commits) ∨
    (∃ t fc, t ∈ store.commits ∧ Accepts cdc crypto chainID t fc ∧
      (∀ c ∈ store.commits, c.Height ≠ fc.Height) ∧ fc.Height = h ∧ r = .ok fc ∧
      store' = store.SaveFullCommit fc) ∨
    (∃ mid e, updateToHeight cdc crypto chainID source ValidateFull fuel store mid =
      some (.ok (.error e, store')) ∧ r = .error e) ∨
    (∃ mid fc store₂ sfc', sfc'.Height = h ∧
      updateToHeight cdc crypto chainID source ValidateFull fuel store mid =
        some (.ok (.ok fc, store₂)) ∧
      updateLoop cdc crypto chainID source ValidateFull fuel store₂ h sfc' = some (.ok (r, store'))) := by
  rw [updateLoop] at hrun
  split at hrun
  · cases hrun
    exact .inl ⟨rfl, fun _ h => by cases h⟩
  · rename_i t hl
    have ht := (TrustedStore.LatestFullCommit_spec hl).1
    split at hrun
    · cases hrun
      exact .inl ⟨rfl, fun fc h => by cases h; exact ⟨by assumption, ht⟩⟩
    · split at hrun
      · cases hrun
      · -- the source's commit passed and was saved
        rename_i store₁ sfc' hv
        cases hrun
        obtain ⟨hlt, hhdr, hsave | ⟨e, he, -⟩⟩ := verifyAndSave_ok cdc crypto chainID hv
        · obtain ⟨-, rfl, hacc⟩ := hsave
          have hh : sfc'.Height = h := by rw [FullCommit.Height, hhdr]; exact hs
          exact .inr (.inl ⟨t, sfc', ht, hacc,
            hh ▸ free_of_latest hl (hs ▸ hlt), hh, rfl, rfl⟩)
        · cases he
      · rename_i err store₁ sfc' hv
        obtain ⟨hlt, hhdr, ⟨he, -⟩ | ⟨e, -, rfl⟩⟩ := verifyAndSave_ok cdc crypto chainID hv
        · cases he
        have hh : sfc'.Height = h := by rw [FullCommit.Height, hhdr]; exact hs
        split at hrun
        · dsimp only at hrun
          split at hrun
          · cases hrun
          · split at hrun
            · cases hrun
            · cases hrun
            · cases hrun
              exact .inr (.inr (.inl ⟨_, _, by assumption, rfl⟩))
            · exact .inr (.inr (.inr ⟨_, _, _, sfc', hh, by assumption, hrun⟩))
        · cases hrun
          exact .inl ⟨rfl, fun _ h => by cases h⟩

/-- What a call that returns guarantees: the store grew along trust chains, and a commit the call
returns is stored and at `h`. -/
def Sound (store : TrustedStore) (h : Int) (r : Except LiteError FullCommit) (store' : TrustedStore) :
    Prop :=
  Grows (Accepts cdc crypto chainID) store store' ∧
    ∀ fc, r = .ok fc → fc.Height = h ∧ fc ∈ store'.commits

theorem run_sound (fuel : Nat) :
    (∀ store h r store', updateToHeight cdc crypto chainID source ValidateFull fuel store h =
      some (.ok (r, store')) → Sound cdc crypto chainID store h r store') ∧
    (∀ store h sfc r store', sfc.Height = h →
      updateLoop cdc crypto chainID source ValidateFull fuel store h sfc = some (.ok (r, store')) →
      Sound cdc crypto chainID store h r store') := by
  induction fuel with
  | zero =>
    refine ⟨fun _ _ _ _ hrun => ?_, fun _ _ _ _ _ _ hrun => ?_⟩
    · rw [updateToHeight] at hrun
      cases hrun
    · rw [updateLoop] at hrun
      cases hrun
  | succ fuel ih =>
    obtain ⟨ihU, ihL⟩ := ih
    refine ⟨?_, ?_⟩
    · intro store h r store' hrun
      rcases updateToHeight_succ cdc crypto chainID source ValidateFull hrun with
        ⟨e, rfl, rfl⟩ | ⟨sfc, hs, hloop⟩
      · exact ⟨Grows.refl _ _, fun _ h => by cases h⟩
      · exact ihL store h sfc r store' hs hloop
    · intro store h sfc r store' hs hrun
      rcases updateLoop_succ cdc crypto chainID source ValidateFull hs hrun with
        ⟨rfl, hret⟩ | ⟨t, fc, ht, hacc, hfree, hh, rfl, rfl⟩ | ⟨mid, e, hmid, rfl⟩ |
        ⟨mid, fc, store₂, sfc', hs', hmid, hloop⟩
      · exact ⟨Grows.refl _ _, hret⟩
      · refine ⟨Grows.save ht hacc hfree, fun fc' hfc' => ?_⟩
        cases hfc'
        exact ⟨hh, TrustedStore.mem_SaveFullCommit.mpr (.inl rfl)⟩
      · exact ⟨(ihU store mid _ store' hmid).1, fun _ h => by cases h⟩
      · -- the call at the midpoint grew the store, and the loop went on from there
        have h₁ := (ihU store mid _ store₂ hmid).1
        obtain ⟨h₂, hret⟩ := ihL store₂ h sfc' r store' hs' hloop
        exact ⟨h₁.trans h₂, hret⟩

/-- `updateToHeight` trusts only along trust chains: when it returns, the store still holds every
commit it held, each commit it holds is one it held or one `VerifyFutureCommit` accepted from a
lower commit on such a chain, and a commit it returns is the stored one at `h`. -/
theorem updateToHeight_trust_chain (fuel : Nat) (store : TrustedStore) (h : Int)
    {r : Except LiteError FullCommit} {store' : TrustedStore}
    (hrun : updateToHeight cdc crypto chainID source ValidateFull fuel store h =
      some (.ok (r, store'))) :
    (∀ fc ∈ store.commits, fc ∈ store'.commits) ∧
    (∀ fc ∈ store'.commits, Chained cdc crypto chainID store.commits fc) ∧
    (∀ fc, r = .ok fc → fc.Height = h ∧ fc ∈ store'.commits) := by
  obtain ⟨hgrow, hret⟩ :=
    (run_sound cdc crypto chainID source ValidateFull fuel).1 store h r store' hrun
  exact ⟨hgrow.keeps, hgrow.chained, hret⟩

/-! ### The bisection between adjacent heights -/

/-- A call at a height the store already holds ends in its first round, with that commit. -/
theorem updateToHeight_of_trusted (fuel : Nat) {trusted : TrustedStore} {h : Int}
    {s t : FullCommit} (hsrc : source.LatestFullCommit chainID h h = .ok s) (hs : s.Height = h)
    (hvs : ValidateFull s = .ok none) (ht : trusted.LatestFullCommit 1 h = .ok t)
    (hth : t.Height = h) :
    updateToHeight cdc crypto chainID source ValidateFull fuel trusted h = none ∨
      updateToHeight cdc crypto chainID source ValidateFull fuel trusted h =
        some (.ok (.ok t, trusted)) := by
  match fuel with
  | 0 => exact .inl rfl
  | 1 => exact .inl (by simp [updateToHeight, updateLoop, hsrc, hs, hvs])
  | fuel + 2 => exact .inr (by simp [updateToHeight, updateLoop, hsrc, hs, hvs, ht, hth])

/-- The bisection between adjacent heights. When the latest trusted commit `t` is at `h - 1` and
`verifyAndSave` reports too much change from it to the source's commit at `h`, the midpoint is
`h - 1` itself: the call there returns `t` without saving anything, and the loop retries the same
check. No number of rounds ends it. -/
theorem updateLoop_stalls {trusted : TrustedStore} {h : Int} {s s' t : FullCommit}
    {err : LiteError} (hsrc' : source.LatestFullCommit chainID (h - 1) (h - 1) = .ok s')
    (hs' : s'.Height = h - 1) (hvs' : ValidateFull s' = .ok none)
    (ht : trusted.LatestFullCommit 1 h = .ok t) (hth : t.Height = h - 1) (hs : s.Height = h)
    (hv : verifyAndSave cdc crypto chainID trusted t s = .ok (some err, trusted, s))
    (herr : IsErrTooMuchChange err = true) (hsum : InInt64 (h - 1 + h)) :
    ∀ fuel, updateLoop cdc crypto chainID source ValidateFull fuel trusted h s = none := by
  have hlo : 1 ≤ t.Height := (TrustedStore.LatestFullCommit_spec ht).2.1
  -- `start + 1 = end`, so the midpoint is `start`
  have hmid : (wrap64 (h - 1 + h)).tdiv 2 = h - 1 := by
    rw [wrap64_of_inInt64 hsum, Int.tdiv_eq_ediv_of_nonneg (by omega)]
    omega
  have ht' : trusted.LatestFullCommit 1 (h - 1) = .ok t :=
    TrustedStore.LatestFullCommit_of_le ht (by omega) (by omega) (by omega)
  intro fuel
  -- each round bisects to `h - 1`, which hands back the same store, and starts over
  induction fuel with
  | zero => rfl
  | succ fuel ih =>
    have hback := updateToHeight_of_trusted cdc crypto chainID source ValidateFull fuel
      hsrc' hs' hvs' ht' hth
    simp only [updateLoop, ht, hth, hv, herr, hs, hmid]
    rcases hback with hnone | hback
    · simp [hnone]
    · simp [hback, ih]

end Verifier

/-- A set of one validator, of address and key `[a]` and power `10`, with its total cached. -/
def soleSet (a : UInt8) : ValidatorSet := ⟨[⟨⟨[a]⟩, [a], 10, 0⟩], some (.member ⟨[a]⟩), 10⟩

/-- Hashes for the run below: a header hashes to its height, a set to its addresses. -/
def forkHashes : Hashes :=
  ⟨fun sh => [sh.Height.toNat.toUInt8], fun vals => vals.flatMap fun v => v.address.bytes⟩

/-- The block at height `h`, of hash `[h]`. -/
def forkBlock (h : Int) : BlockID := ⟨[h.toNat.toUInt8], ⟨1, [9]⟩⟩

/-- The full commit at height `h` of `soleSet a`, which also names itself next, with the
precommit of its validator signed under `echoCrypto`. -/
def soleCommit (a : UInt8) (h : Int) : FullCommit :=
  let u : Vote := ⟨PrecommitType, h, 0, forkBlock h, 0, [a], 0, []⟩
  ⟨⟨"", h, [a], [a], ⟨forkBlock h, [some { u with Signature := [a] ++ u.SignBytes aminoCodec "" }]⟩⟩,
    soleSet a, soleSet a⟩

/-- A store trusting the commit of validator `[1]` at height `1`. -/
def forkStore : TrustedStore := ⟨[soleCommit 1 1], by simp⟩

/-- A source with the same commit at height `1` and, at height `2`, a commit of validator `[2]`. -/
def forkSource : Provider where
  LatestFullCommit _ minHeight maxHeight :=
    if minHeight ≤ 2 ∧ 2 ≤ maxHeight then .ok (soleCommit 2 2)
    else if minHeight ≤ 1 ∧ 1 ≤ maxHeight then .ok (soleCommit 1 1)
    else .error .commitNotFound
  ValidatorSet _ _ := .error .commitNotFound

theorem updateToHeight_never_returns :
    (soleCommit 1 1).ValidateFull aminoCodec echoCrypto forkHashes "" = .ok none ∧
      (soleCommit 2 2).ValidateFull aminoCodec echoCrypto forkHashes "" = .ok none ∧
      ∀ fuel, updateToHeight aminoCodec echoCrypto "" forkSource
        (fun fc => fc.ValidateFull aminoCodec echoCrypto forkHashes "") fuel forkStore 2 = none := by
  have hv₁ : (soleCommit 1 1).ValidateFull aminoCodec echoCrypto forkHashes "" = .ok none := by
    decide +kernel
  have hv₂ : (soleCommit 2 2).ValidateFull aminoCodec echoCrypto forkHashes "" = .ok none := by
    decide +kernel
  -- the trusted set `[1]` signed nothing at height `2`: too much change
  have hfuture : (soleSet 1).VerifyFutureCommit aminoCodec echoCrypto (soleSet 2) ""
      (soleCommit 2 2).SignedHeader.Commit.BlockID 2 (soleCommit 2 2).SignedHeader.Commit =
        .ok (some (.tooMuchChange 0 7), soleSet 1, soleSet 2) := by
    decide +kernel
  have hsave : verifyAndSave aminoCodec echoCrypto "" forkStore (soleCommit 1 1) (soleCommit 2 2) =
      .ok (some (.futureCommit (.tooMuchChange 0 7)), forkStore, soleCommit 2 2) := by
    rw [verifyAndSave, if_neg (by decide)]
    exact congrArg (· >>= _) hfuture
  refine ⟨hv₁, hv₂, fun fuel => ?_⟩
  cases fuel with
  | zero => rfl
  | succ fuel =>
    have hloop := updateLoop_stalls aminoCodec echoCrypto "" forkSource
      (fun fc => fc.ValidateFull aminoCodec echoCrypto forkHashes "") (h := 2) rfl rfl hv₁ rfl rfl
      rfl hsave rfl (by decide) fuel
    have hsrc : forkSource.LatestFullCommit "" 2 2 = .ok (soleCommit 2 2) := rfl
    have hh : (soleCommit 2 2).Height = 2 := rfl
    simp only [updateToHeight, hsrc, hh, ne_eq, not_true_eq_false, if_false, hv₂]
    exact hloop

end Dgrid.Lite
