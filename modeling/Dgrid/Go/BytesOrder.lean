import Dgrid.Go.Bytes

/-! `bytes.Compare` as the order of byte strings, and `bytes.HasPrefix`. The order ignores a
common prefix; the strings that extend a prefix `p` form one block, so that a string at or above
`p ++ s` and below an extension of `p` extends `p`; and it is a strict total order, so that sorting
distinct strings by it has one result. Nothing here names the program. -/

namespace Go

def HasPrefix (s pre : Bytes) : Bool := pre.length ≤ s.length && s.take pre.length == pre

theorem HasPrefix_iff {s pre : Bytes} : HasPrefix s pre = true ↔ pre <+: s := by
  rw [HasPrefix, Bool.and_eq_true, decide_eq_true_iff, beq_iff_eq, List.prefix_iff_eq_take]
  constructor
  · rintro ⟨-, h⟩
    exact h.symm
  · intro h
    exact ⟨h ▸ by simp, h.symm⟩

@[simp] theorem bytesCompare_append_left (p a b : Bytes) :
    bytesCompare (p ++ a) (p ++ b) = bytesCompare a b := by
  induction p with
  | nil => rfl
  | cons x xs ih => simp [bytesCompare_cons_cons, ih]

theorem bytesCompare_cons_lt {x y : UInt8} (h : x < y) (a b : Bytes) :
    bytesCompare (x :: a) (y :: b) = -1 := by
  simp [bytesCompare_cons_cons, h]

theorem bytesCompare_cons_gt {x y : UInt8} (h : y < x) (a b : Bytes) :
    bytesCompare (x :: a) (y :: b) = 1 := by
  have : ¬ x < y := fun h' => absurd (UInt8.lt_trans h h') (UInt8.lt_irrefl y)
  simp [bytesCompare_cons_cons, h, this]

theorem bytesCompare_cons_eq {x y : UInt8} (h₁ : ¬ x < y) (h₂ : ¬ y < x) (a b : Bytes) :
    bytesCompare (x :: a) (y :: b) = bytesCompare a b := by
  simp [bytesCompare_cons_cons, h₁, h₂]

theorem eq_of_not_lt {a b : Bytes} (h₁ : bytesCompare a b ≠ -1) (h₂ : bytesCompare b a ≠ -1) :
    a = b := by
  rcases bytesCompare_cases a b with h | h | h
  · exact absurd h h₁
  · exact bytesCompare_eq_zero.mp h
  · rw [bytesCompare_swap, h] at h₂
    exact absurd rfl h₂

theorem prefix_of_between {p s e k : Bytes} (hs : bytesCompare k (p ++ s) ≠ -1)
    (he : bytesCompare k (p ++ e) = -1) : p <+: k := by
  induction p generalizing k with
  | nil => exact List.nil_prefix
  | cons x ps ih =>
    cases k with
    | nil => exact absurd rfl hs
    | cons y ks =>
      by_cases hyx : y < x
      · exact absurd (bytesCompare_cons_lt hyx _ _) hs
      · by_cases hxy : x < y
        · rw [List.cons_append, bytesCompare_cons_gt hxy] at he
          cases he
        · -- the first bytes agree; the rest lies between the extensions of `ps`
          have hxy' := uint8_eq_of_not_lt hxy hyx
          subst hxy'
          rw [List.cons_append, bytesCompare_cons_eq hyx hyx] at hs he
          exact List.cons_prefix_cons.mpr ⟨rfl, ih hs he⟩

theorem HasPrefix_of_lt {p s a b : Bytes} (ha : bytesCompare a (p ++ s) ≠ -1)
    (hab : bytesCompare a b = -1) (hb : HasPrefix b p = true) : HasPrefix a p = true := by
  obtain ⟨e, rfl⟩ := HasPrefix_iff.mp hb
  exact HasPrefix_iff.mpr (prefix_of_between ha hab)

theorem append_drop_of_HasPrefix {k p : Bytes} (h : HasPrefix k p = true) :
    p ++ k.drop p.length = k :=
  List.prefix_iff_eq_append.mp (HasPrefix_iff.mp h)

theorem not_ff_lt (y : UInt8) : ¬ (0xFF : UInt8) < y := by
  rw [UInt8.lt_iff_toNat_lt]
  have := y.toNat_lt
  simp only [UInt8.reduceToNat]
  omega

theorem eq_replicate_or_carry (p : Bytes) :
    (∃ n, p = List.replicate n 0xFF) ∨ ∃ a x m, x < 0xFF ∧ p = a ++ x :: List.replicate m 0xFF := by
  induction p with
  | nil => exact .inl ⟨0, rfl⟩
  | cons y ps ih =>
    rcases ih with ⟨n, rfl⟩ | ⟨a, x, m, hx, rfl⟩
    · by_cases hy : y < 0xFF
      · exact .inr ⟨[], y, n, hy, rfl⟩
      · have hyf := uint8_eq_of_not_lt hy (not_ff_lt y)
        exact .inl ⟨n + 1, by rw [hyf, List.replicate_succ]⟩
    · exact .inr ⟨y :: a, x, m, hx, rfl⟩

theorem prefix_of_ge_replicate {n : Nat} {q s : Bytes}
    (h : bytesCompare q (List.replicate n 0xFF ++ s) ≠ -1) : List.replicate n 0xFF <+: q := by
  induction n generalizing q with
  | zero => exact List.nil_prefix
  | succ n ih =>
    rw [List.replicate_succ, List.cons_append] at h
    cases q with
    | nil => exact absurd rfl h
    | cons y ys =>
      have hy : ¬ y < 0xFF := fun hy => h (bytesCompare_cons_lt hy _ _)
      have hyf := uint8_eq_of_not_lt hy (not_ff_lt y)
      subst hyf
      rw [bytesCompare_cons_eq hy hy] at h
      rw [List.replicate_succ]
      exact List.cons_prefix_cons.mpr ⟨rfl, ih h⟩

theorem lt_add_one_of_lt_ff {x : UInt8} (hx : x < 0xFF) : x < x + 1 := by
  rw [UInt8.lt_iff_toNat_lt, UInt8.toNat_add, UInt8.toNat_one]
  rw [UInt8.lt_iff_toNat_lt] at hx
  have : x.toNat + 1 < 256 := by
    simp at hx
    omega
  rw [Nat.mod_eq_of_lt this]
  omega

theorem eq_of_lt_add_one {x y : UInt8} (hx : x < 0xFF) (h₁ : ¬ y < x) (h₂ : y < x + 1) : y = x := by
  rw [UInt8.lt_iff_toNat_lt] at hx h₁ h₂
  rw [UInt8.toNat_add, UInt8.toNat_one] at h₂
  simp only [UInt8.reduceToNat] at hx
  rw [Nat.mod_eq_of_lt (by omega)] at h₂
  exact UInt8.toNat_inj.mp (by omega)

theorem bytesCompare_nil_ne (a : Bytes) : bytesCompare a [] ≠ -1 := by
  cases a <;> simp

theorem bytesCompare_append_self (p t : Bytes) : bytesCompare (p ++ t) p ≠ -1 := by
  have h := bytesCompare_append_left p t []
  rw [List.append_nil] at h
  rw [h]
  exact bytesCompare_nil_ne t

theorem prefix_of_between_succ {a q : Bytes} {x : UInt8} (hx : x < 0xFF)
    (hs : bytesCompare q (a ++ [x]) ≠ -1) (he : bytesCompare q (a ++ [x + 1]) = -1) :
    a ++ [x] <+: q := by
  obtain ⟨r, rfl⟩ := prefix_of_between hs he
  rw [bytesCompare_append_left] at hs he
  cases r with
  | nil => exact absurd rfl hs
  | cons y r =>
    have hyx : ¬ y < x := fun h => hs (bytesCompare_cons_lt h _ _)
    -- the byte after `a` is `x`: not below it, and not `x + 1` or above
    have hy : y < x + 1 := by
      by_contra hy
      by_cases hxy : x + 1 < y
      · rw [bytesCompare_cons_gt hxy] at he
        cases he
      · rw [bytesCompare_cons_eq hy hxy] at he
        exact bytesCompare_nil_ne r he
    rw [eq_of_lt_add_one hx hyx hy]
    exact ⟨r, by simp⟩

/-! ### Sorting by `bytes.Compare` -/

/-- Go's `<` on strings. -/
def bytesLess (a b : Bytes) : Bool := decide (bytesCompare a b < 0)

theorem bytesLess_iff {a b : Bytes} : bytesLess a b = true ↔ bytesCompare a b = -1 := by
  rcases bytesCompare_cases a b with h | h | h <;> simp [bytesLess, h]

theorem bytesLess_irrefl (a : Bytes) : bytesLess a a = false := by
  simp [bytesLess]

theorem bytesLess_trans (a b c : Bytes) (h₁ : bytesLess a b = true) (h₂ : bytesLess b c = true) :
    bytesLess a c = true :=
  bytesLess_iff.mpr (bytesCompare_trans (bytesLess_iff.mp h₁) (bytesLess_iff.mp h₂))

theorem bytesCompare_lt_of_not_less {a b : Bytes} (h : bytesLess b a = false) (hne : a ≠ b) :
    bytesCompare a b = -1 := by
  rcases bytesCompare_cases a b with hab | hab | hab
  · exact hab
  · exact absurd (bytesCompare_eq_zero.mp hab) hne
  · have hba : bytesCompare b a = -1 := by rw [bytesCompare_swap, hab]
    rw [bytesLess_iff.mpr hba] at h
    cases h

theorem bytesLess_total (a b : Bytes) (h₁ : bytesLess a b = false) (h₂ : bytesLess b a = false)
    (c : Bytes) : bytesLess c a = bytesLess c b := by
  have h : a = b := eq_of_not_lt (fun h => by simp [bytesLess_iff.mpr h] at h₁)
    (fun h => by simp [bytesLess_iff.mpr h] at h₂)
  rw [h]

end Go
