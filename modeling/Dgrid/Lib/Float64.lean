import Mathlib.Data.Rat.Floor

/-! IEEE 754 binary64 arithmetic over the rationals: a float is the rational it stands for, and
an operation computes the exact result and rounds it to the nearest binary64 value, ties to
even. Magnitudes are taken to stay below `2^1024`, past which the format overflows. -/

namespace Float64

/-- `n / d` rounded to the nearest natural number, ties to even. -/
def rne (n d : Nat) : Nat :=
  if 2 * (n % d) < d then n / d
  else if d < 2 * (n % d) then n / d + 1
  else if n / d % 2 = 0 then n / d else n / d + 1

/-- `⌊log₂ (n / d)⌋`, for positive `n` and `d`: the difference of the leading bits, or one less
when the quotient is below its power of two. -/
def log2 (n d : Nat) : Int :=
  let e : Int := (n.log2 : Int) - d.log2
  if d * 2 ^ e.toNat ≤ n * 2 ^ (-e).toNat then e else e - 1

/-- `n / d` rounded to binary64: the quotient scaled by `2^k` so that it has 53 bits before the
point, with `k` at most `1074` so that the least step is that of the subnormals, `2^-1074`. -/
def roundMag (n d : Nat) : ℚ :=
  if n = 0 then 0
  else
    let k : Int := min (52 - log2 n d) 1074
    (rne (n * 2 ^ k.toNat) (d * 2 ^ (-k).toNat) : ℚ) * 2 ^ (-k).toNat / 2 ^ k.toNat

/-- The binary64 value nearest to `x`. -/
def round (x : ℚ) : ℚ :=
  if x < 0 then -roundMag (-x).num.toNat (-x).den else roundMag x.num.toNat x.den

/-- `math.Round(x)`: the nearest integer, halves away from zero. -/
def mathRound (x : ℚ) : ℤ :=
  if x < 0 then -⌊-x + 1 / 2⌋ else ⌊x + 1 / 2⌋

theorem log2_one_of_pos {m : Nat} (hm : m ≠ 0) : log2 m 1 = m.log2 := by
  have hle : 2 ^ m.log2 ≤ m := Nat.log2_self_le hm
  have hone : Nat.log2 1 = 0 := rfl
  simp only [log2, hone, Nat.cast_zero, sub_zero, Int.toNat_natCast, one_mul]
  rw [if_pos (by simpa using hle)]

theorem roundMag_of_lt {m : Nat} (hm : m < 2 ^ 53) : roundMag m 1 = m := by
  rcases Nat.eq_zero_or_pos m with rfl | hpos
  · simp [roundMag]
  have hlog : m.log2 < 53 := (Nat.log2_lt hpos.ne').mpr hm
  have hk : min (52 - log2 m 1) 1074 = ((52 - m.log2 : Nat) : Int) := by
    rw [log2_one_of_pos hpos.ne']
    omega
  have hrne : ∀ s : Nat, rne (m * s) 1 = m * s := by
    intro s
    simp [rne, Nat.mod_one]
  simp only [roundMag, hpos.ne', if_false, hk, Int.toNat_natCast, one_mul]
  have hneg : (-((52 - m.log2 : Nat) : Int)).toNat = 0 := by omega
  simp only [hneg, pow_zero, mul_one, hrne, Nat.cast_mul, Nat.cast_pow, Nat.cast_ofNat]
  field_simp

theorem round_intCast {n : ℤ} (h : n.natAbs < 2 ^ 53) : round n = n := by
  unfold round
  split_ifs with hn
  · have hn' : n < 0 := by exact_mod_cast hn
    have hm : ((-n : ℤ) : ℚ).num.toNat = n.natAbs := by
      rw [Rat.num_intCast]
      omega
    have habs : ((n.natAbs : ℕ) : ℚ) = -n := by
      rw [Nat.cast_natAbs, Int.cast_abs, abs_of_neg hn]
    rw [← Int.cast_neg, hm, Rat.den_intCast, roundMag_of_lt h, habs, neg_neg]
  · have hn' : 0 ≤ n := by exact_mod_cast not_lt.mp hn
    have hm : ((n : ℤ) : ℚ).num.toNat = n.natAbs := by
      rw [Rat.num_intCast]
      omega
    have habs : ((n.natAbs : ℕ) : ℚ) = n := by
      rw [Nat.cast_natAbs, Int.cast_abs, abs_of_nonneg (not_lt.mp hn)]
    rw [hm, Rat.den_intCast, roundMag_of_lt h, habs]

theorem mathRound_intCast (n : ℤ) : mathRound n = n := by
  have half : ⌊(1 / 2 : ℚ)⌋ = 0 := by norm_num [Int.floor_eq_iff]
  unfold mathRound
  split_ifs
  · rw [← Int.cast_neg, Int.floor_intCast_add, half, add_zero, neg_neg]
  · rw [Int.floor_intCast_add, half, add_zero]

end Float64
