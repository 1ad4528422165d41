import Dgrid.Go.Bytes

/-! `core/types/validator.go` and the arithmetic helpers of `validator_set.go`: addresses are
`cmn.HexBytes` ordered by `bytes.Compare`, a validator carries an address, a public key, a
voting power and a proposer priority, and priorities move through clipping `int64` additions. -/

namespace Dgrid.Types
open Go

/-- `crypto.Address`, an alias of `cmn.HexBytes` (a named `[]byte`); validators are ordered by
it. -/
structure Address where
  bytes : Bytes
deriving DecidableEq, Inhabited, Repr

/-- Addresses ordered by `bytes.Compare`: `a < b` is `bytes.Compare(a, b) < 0`. -/
instance : LinearOrder Address where
  le a b := bytesCompare a.bytes b.bytes ≤ 0
  lt a b := bytesCompare a.bytes b.bytes < 0
  le_refl a := by simp
  le_trans a b c hab hbc := by
    change bytesCompare a.bytes b.bytes ≤ 0 at hab
    change bytesCompare b.bytes c.bytes ≤ 0 at hbc
    rcases bytesCompare_cases a.bytes b.bytes with h₁ | h₁ | h₁
    · rcases bytesCompare_cases b.bytes c.bytes with h₂ | h₂ | h₂
      · rw [bytesCompare_trans h₁ h₂]; decide
      · rw [← bytesCompare_eq_zero.mp h₂, h₁]; decide
      · omega
    · rw [bytesCompare_eq_zero.mp h₁]; exact hbc
    · omega
  lt_iff_le_not_ge a b := by
    rw [bytesCompare_swap a.bytes b.bytes]
    omega
  le_antisymm a b hab hba := by
    change bytesCompare a.bytes b.bytes ≤ 0 at hab
    change bytesCompare b.bytes a.bytes ≤ 0 at hba
    rw [bytesCompare_swap a.bytes b.bytes] at hba
    have := bytesCompare_eq_zero.mp (show bytesCompare a.bytes b.bytes = 0 by omega)
    cases a; cases b; simp_all
  le_total a b := by
    rw [bytesCompare_swap a.bytes b.bytes]
    omega
  toDecidableLE a b := inferInstanceAs (Decidable (bytesCompare a.bytes b.bytes ≤ 0))
  toDecidableLT a b := inferInstanceAs (Decidable (bytesCompare a.bytes b.bytes < 0))

theorem Address.lt_iff {a b : Address} : a < b ↔ bytesCompare a.bytes b.bytes < 0 := Iff.rfl

theorem Address.le_iff {a b : Address} : a ≤ b ↔ bytesCompare a.bytes b.bytes ≤ 0 := Iff.rfl

/-- `crypto.PubKey`, kept as its encoded bytes; what is done with a key (its address, checking a
signature with it) is a parameter of the code that does it. -/
abbrev PubKey := Bytes

/-- `types.Validator`. -/
structure Validator where
  address : Address
  pubKey : PubKey
  votingPower : Int
  proposerPriority : Int
deriving DecidableEq, Inhabited, Repr

def MaxTotalVotingPower : Int := 1152921504606846975

def PriorityWindowSizeFactor : Int := 2

theorem maxTotalVotingPower_eq : MaxTotalVotingPower = maxInt64 / 8 := by
  simp only [MaxTotalVotingPower, maxInt64]
  norm_num

/-- `v.CompareProposerPriority(other)` for a non-nil `v`: `true` when `v` is returned, `false`
when `other` is; the higher priority wins, then the smaller address; two validators of equal
priority and address are a sanity panic. -/
def Validator.CompareProposerPriority (v other : Validator) : Result Bool :=
  if v.proposerPriority > other.proposerPriority then .ok true
  else if v.proposerPriority < other.proposerPriority then .ok false
  else
    let result := bytesCompare v.address.bytes other.address.bytes
    if result < 0 then .ok true
    else if result > 0 then .ok false
    else .panic "Cannot compare identical validators"

/-- `safeAdd`: the sum and whether it would overflow `int64`. -/
def safeAdd (a b : Int) : Int × Bool :=
  if b > 0 ∧ a > maxInt64 - b then (-1, true)
  else if b < 0 ∧ a < minInt64 - b then (-1, true)
  else (a + b, false)

/-- `safeSub`: the difference and whether it would overflow `int64`. -/
def safeSub (a b : Int) : Int × Bool :=
  if b > 0 ∧ a < minInt64 + b then (-1, true)
  else if b < 0 ∧ a > maxInt64 + b then (-1, true)
  else (a - b, false)

/-- `safeAddClip`: the sum, clipped to the `int64` bound it would cross. -/
def safeAddClip (a b : Int) : Int :=
  let (c, overflow) := safeAdd a b
  if overflow then (if b < 0 then minInt64 else maxInt64) else c

/-- `safeSubClip`: the difference, clipped to the `int64` bound it would cross. -/
def safeSubClip (a b : Int) : Int :=
  let (c, overflow) := safeSub a b
  if overflow then (if b > 0 then minInt64 else maxInt64) else c

/-- Whether `safeAddClip a b` takes its clipping branch. -/
def AddClips (a b : Int) : Prop := (safeAdd a b).2 = true

/-- Whether `safeSubClip a b` takes its clipping branch. -/
def SubClips (a b : Int) : Prop := (safeSub a b).2 = true

theorem safeAdd_of_inInt64 {a b : Int} (h : InInt64 (a + b)) : safeAdd a b = (a + b, false) := by
  unfold InInt64 at h
  have h₁ : ¬ (b > 0 ∧ a > maxInt64 - b) := by omega
  have h₂ : ¬ (b < 0 ∧ a < minInt64 - b) := by omega
  simp only [safeAdd, if_neg h₁, if_neg h₂]

theorem safeAddClip_of_inInt64 {a b : Int} (h : InInt64 (a + b)) : safeAddClip a b = a + b := by
  simp [safeAddClip, safeAdd_of_inInt64 h]

theorem safeSub_of_inInt64 {a b : Int} (h : InInt64 (a - b)) : safeSub a b = (a - b, false) := by
  unfold InInt64 at h
  have h₁ : ¬ (b > 0 ∧ a < minInt64 + b) := by omega
  have h₂ : ¬ (b < 0 ∧ a > maxInt64 + b) := by omega
  simp only [safeSub, if_neg h₁, if_neg h₂]

theorem safeSubClip_of_inInt64 {a b : Int} (h : InInt64 (a - b)) : safeSubClip a b = a - b := by
  simp [safeSubClip, safeSub_of_inInt64 h]

end Dgrid.Types
