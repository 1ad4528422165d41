import Dgrid.Go.Basic

/-! Go byte slices and `bytes.Compare`. A `[]byte` is a list of `UInt8`; `nil` and the empty
slice are the same list, as `bytes.Equal` treats them. `bytes.Compare` is the lexicographic
order on unsigned bytes, and it is a strict total order. -/

namespace Go

/-- A Go `[]byte`. -/
abbrev Bytes := List UInt8

/-- `==` on byte slices is equality; named once, so that every `decide (x ∈ l)` over byte
slices uses this one instance. -/
instance : LawfulBEq Bytes := inferInstanceAs (LawfulBEq (List UInt8))

/-- `bytes.Compare`: `0` if `a == b`, `-1` if `a < b`, `+1` if `a > b`, comparing bytes as
unsigned values from the front, a proper prefix being the smaller. -/
def bytesCompare : Bytes → Bytes → Int
  | [], [] => 0
  | [], _ :: _ => -1
  | _ :: _, [] => 1
  | a :: as, b :: bs => if a < b then -1 else if b < a then 1 else bytesCompare as bs

@[simp] theorem bytesCompare_nil_nil : bytesCompare [] [] = 0 := rfl

@[simp] theorem bytesCompare_nil_cons (b : UInt8) (bs : Bytes) : bytesCompare [] (b :: bs) = -1 :=
  rfl

@[simp] theorem bytesCompare_cons_nil (a : UInt8) (as : Bytes) : bytesCompare (a :: as) [] = 1 :=
  rfl

theorem bytesCompare_cons_cons (a b : UInt8) (as bs : Bytes) :
    bytesCompare (a :: as) (b :: bs) =
      if a < b then -1 else if b < a then 1 else bytesCompare as bs := rfl

theorem uint8_eq_of_not_lt {a b : UInt8} (h₁ : ¬ a < b) (h₂ : ¬ b < a) : a = b := by
  rw [UInt8.lt_iff_toNat_lt] at h₁ h₂
  exact UInt8.toNat_inj.mp (by omega)

@[simp] theorem bytesCompare_self (a : Bytes) : bytesCompare a a = 0 := by
  induction a with
  | nil => rfl
  | cons x xs ih => simp [bytesCompare_cons_cons, ih]

theorem bytesCompare_cases (a b : Bytes) :
    bytesCompare a b = -1 ∨ bytesCompare a b = 0 ∨ bytesCompare a b = 1 := by
  induction a generalizing b with
  | nil => cases b <;> simp
  | cons x xs ih =>
      cases b with
      | nil => simp
      | cons y ys =>
          rw [bytesCompare_cons_cons]
          split
          · exact .inl rfl
          · split
            · exact .inr (.inr rfl)
            · exact ih ys

theorem bytesCompare_eq_zero {a b : Bytes} : bytesCompare a b = 0 ↔ a = b := by
  refine ⟨fun h => ?_, fun h => h ▸ bytesCompare_self a⟩
  induction a generalizing b with
  | nil => cases b with
    | nil => rfl
    | cons y ys => simp at h
  | cons x xs ih =>
      cases b with
      | nil => simp at h
      | cons y ys =>
          rw [bytesCompare_cons_cons] at h
          split at h
          · cases h
          · split at h
            · cases h
            · rename_i hxy hyx
              rw [uint8_eq_of_not_lt hxy hyx, ih h]

theorem bytesCompare_swap (a b : Bytes) : bytesCompare b a = -bytesCompare a b := by
  induction a generalizing b with
  | nil => cases b <;> simp
  | cons x xs ih =>
      cases b with
      | nil => simp
      | cons y ys =>
          simp only [bytesCompare_cons_cons]
          by_cases hxy : x < y
          · have hyx : ¬ y < x := fun h => absurd (UInt8.lt_trans hxy h) (UInt8.lt_irrefl x)
            simp [hxy, hyx]
          · by_cases hyx : y < x
            · simp [hxy, hyx]
            · simp [hxy, hyx, ih ys]

theorem bytesCompare_trans {a b c : Bytes} (h₁ : bytesCompare a b = -1)
    (h₂ : bytesCompare b c = -1) : bytesCompare a c = -1 := by
  induction a generalizing b c with
  | nil =>
      cases c with
      | nil => cases b <;> simp at h₁ h₂
      | cons z zs => rfl
  | cons x xs ih =>
      cases b with
      | nil => simp at h₁
      | cons y ys =>
          cases c with
          | nil => simp at h₂
          | cons z zs =>
              simp only [bytesCompare_cons_cons] at h₁ h₂ ⊢
              by_cases hxy : x < y
              · -- the first bytes already decide, once `y ≤ z` is known from `h₂`
                have hxz : x < z := by
                  by_cases hyz : y < z
                  · exact UInt8.lt_trans hxy hyz
                  · by_cases hzy : z < y
                    · simp [hyz, hzy] at h₂
                    · exact uint8_eq_of_not_lt hyz hzy ▸ hxy
                simp [hxz]
              · by_cases hyx : y < x
                · simp [hxy, hyx] at h₁
                · obtain rfl := uint8_eq_of_not_lt hxy hyx
                  simp only [hxy, if_false] at h₁
                  by_cases hxz : x < z
                  · simp [hxz]
                  · by_cases hzx : z < x
                    · simp [hxz, hzx] at h₂
                    · obtain rfl := uint8_eq_of_not_lt hxz hzx
                      simp only [hxz, if_false] at h₂ ⊢
                      exact ih h₁ h₂

end Go
