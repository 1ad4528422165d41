import Mathlib

/-! Go's machine integers and call outcomes. A Go `int64` is an `Int` kept in range by an
explicit two's-complement wrap where Go's `+` and `-` can overflow, and an `int32` likewise; a Go call either
returns (a value, or the `error` it reports) or panics. Nothing here names the program. -/

namespace Go

def minInt64 : Int := -9223372036854775808

def maxInt64 : Int := 9223372036854775807

/-- The values an `int64` can hold. -/
def InInt64 (x : Int) : Prop := minInt64 ≤ x ∧ x ≤ maxInt64

instance : DecidablePred InInt64 := fun x =>
  inferInstanceAs (Decidable (minInt64 ≤ x ∧ x ≤ maxInt64))

/-- Two's-complement wrap of an exact result onto `int64`: what Go's `+`, `-` and `*`
on `int64` leave when the exact result does not fit. -/
def wrap64 (x : Int) : Int := (x + 9223372036854775808) % 18446744073709551616 - 9223372036854775808

theorem wrap64_inInt64 (x : Int) : InInt64 (wrap64 x) := by
  unfold InInt64 wrap64 minInt64 maxInt64
  omega

theorem wrap64_of_inInt64 {x : Int} (h : InInt64 x) : wrap64 x = x := by
  unfold InInt64 minInt64 maxInt64 at h
  unfold wrap64
  omega

@[simp] theorem wrap64_zero : wrap64 0 = 0 := by decide

theorem wrap64_add_wrap64 (a b : Int) : wrap64 (wrap64 a + b) = wrap64 (a + b) := by
  unfold wrap64
  omega

theorem wrap64_sub_wrap64 (a b : Int) : wrap64 (wrap64 a - b) = wrap64 (a - b) := by
  unfold wrap64
  omega

/-- The same wrap onto `int32`, for the counters Go keeps in one. -/
def wrap32 (x : Int) : Int := (x + 2147483648) % 4294967296 - 2147483648

@[simp] theorem wrap32_zero : wrap32 0 = 0 := by decide

theorem wrap32_add_wrap32 (a b : Int) : wrap32 (wrap32 a + b) = wrap32 (a + b) := by
  unfold wrap32
  omega

theorem wrap32_sub_wrap32 (a b : Int) : wrap32 (wrap32 a - b) = wrap32 (a - b) := by
  unfold wrap32
  omega

/-- Go's `/` on `int64`: truncated division, panicking on a zero divisor; the one overflowing
quotient, `MinInt64 / -1`, wraps. -/
def tdiv64 (a b : Int) : Option Int := if b = 0 then none else some (wrap64 (a.tdiv b))

/-- The outcome of a Go call: it returns, or it panics. A Go `error` is an ordinary returned
value, so the model keeps it in the returned value and only panics end the computation. -/
inductive Result (α : Type) where
  | ok (val : α)
  | panic (msg : String)
deriving Repr, DecidableEq

namespace Result

variable {α β : Type}

/-- Sequencing of Go statements: a panic ends the call. -/
def bind : Result α → (α → Result β) → Result β
  | ok a, f => f a
  | panic m, _ => panic m

instance : Monad Result where
  pure := ok
  bind := bind

@[simp] theorem pure_eq (a : α) : (pure a : Result α) = ok a := rfl

instance : LawfulMonad Result :=
  LawfulMonad.mk' Result (fun x => by cases x <;> rfl) (fun _ _ => rfl)
    (fun x _ _ => by cases x <;> rfl)

@[simp] theorem ok_bind (a : α) (f : α → Result β) : (ok a >>= f) = f a := rfl

@[simp] theorem panic_bind (m : String) (f : α → Result β) : (panic m >>= f) = panic m := rfl

theorem bind_eq_ok {x : Result α} {f : α → Result β} {b : β} :
    (x >>= f) = ok b ↔ ∃ a, x = ok a ∧ f a = ok b := by
  cases x with
  | ok a => simp
  | panic m => simp

theorem foldlM_invariant {P : β → Prop} {f : β → α → Result β}
    (hf : ∀ b a b', P b → f b a = ok b' → P b') :
    ∀ (xs : List α) (b b' : β), P b → xs.foldlM f b = ok b' → P b' := by
  intro xs
  induction xs with
  | nil =>
      intro b b' hb h
      cases h
      exact hb
  | cons a xs ih =>
      intro b b' hb h
      obtain ⟨b₁, h₁, h⟩ := bind_eq_ok.mp h
      exact ih b₁ b' (hf b a b₁ hb h₁) h

end Result

/-! ### Slices and `uint64` words -/

section Slice

variable {α : Type} [Inhabited α]

/-- Reading `s[i]`: out of range is a panic. -/
def index (s : List α) (i : Int) : Result α :=
  if 0 ≤ i ∧ i < s.length then .ok s[i.toNat]! else .panic "index out of range"

/-- The assignment `s[i] = f(s[i])`, as in `s[i] |= m`: out of range is a panic. -/
def update (s : List α) (i : Int) (f : α → α) : Result (List α) :=
  if 0 ≤ i ∧ i < s.length then .ok (s.set i.toNat (f s[i.toNat]!)) else .panic "index out of range"

omit [Inhabited α] in
/-- The slice expression `s[lo:hi]`: bounds outside `0 ≤ lo ≤ hi ≤ len(s)` are a panic. -/
def slice (s : List α) (lo hi : Int) : Result (List α) :=
  if 0 ≤ lo ∧ lo ≤ hi ∧ hi ≤ s.length then .ok ((s.take hi.toNat).drop lo.toNat)
  else .panic "slice bounds out of range"

theorem index_of_lt {s : List α} {i : Nat} (hi : i < s.length) : index s i = .ok s[i] := by
  simp [index, hi]

theorem update_of_lt {s : List α} {i : Nat} (hi : i < s.length) (f : α → α) :
    update s i f = .ok (s.set i (f s[i])) := by
  simp [update, hi]

end Slice

section Copy

variable {α : Type}

/-- The built-in `copy(dst, src)`: the first `min(len(dst), len(src))` elements of `dst` become
those of `src`; the result is what `dst` holds afterwards. -/
def copy (dst src : List α) : List α := src.take dst.length ++ dst.drop src.length

@[simp] theorem length_copy (dst src : List α) : (copy dst src).length = dst.length := by
  simp only [copy, List.length_append, List.length_take, List.length_drop]
  omega

theorem getElem?_copy (dst src : List α) (i : Nat) :
    (copy dst src)[i]? = if i < src.length ∧ i < dst.length then src[i]? else dst[i]? := by
  rw [copy, List.getElem?_append]
  simp only [List.length_take, List.getElem?_take, List.getElem?_drop]
  by_cases h1 : i < src.length <;> by_cases h2 : i < dst.length
  · simp [h1, h2]
  · simp [h1, h2]
    omega
  · -- past `src`, the element of `dst` is kept
    have hi : src.length + (i - min dst.length src.length) = i := by omega
    simp [h1, h2, hi]
  · simp [h1, h2]
    omega

end Copy

/-- Go's conversion `uint(n)` of an `int`: the two's-complement bits read as unsigned. -/
def uintOfInt (n : Int) : Nat := (n % 18446744073709551616).toNat

/-- Go's `x << s` on `uint64`: a shift by 64 or more gives `0`. -/
def shl64 (x : UInt64) (s : Nat) : UInt64 := if s < 64 then x <<< s.toUInt64 else 0

/-- Go's conversion `uint8(n)` of an `int`: its low eight bits. -/
def uint8OfInt (n : Int) : Nat := (n % 256).toNat

/-- Go's `x << s` on `uint8`: a shift by 8 or more gives `0`. -/
def shl8 (x : UInt8) (s : Nat) : UInt8 := if s < 8 then x <<< s.toUInt8 else 0

theorem shl8_one_toNat {s : Nat} (hs : s < 8) : (shl8 1 s).toNat = 2 ^ s := by
  have h : ∀ t : Fin 8, (shl8 1 t).toNat = 2 ^ (t : Nat) := by decide
  exact h ⟨s, hs⟩

theorem uintOfInt_of_lt {n : Nat} (hn : n < 18446744073709551616) : uintOfInt n = n := by
  unfold uintOfInt
  rw [Int.emod_eq_of_lt (Int.natCast_nonneg n) (by omega), Int.toNat_natCast]

theorem shl64_one_toNat {s : Nat} (hs : s < 64) : (shl64 1 s).toNat = 2 ^ s := by
  have hlt : 2 ^ s < 18446744073709551616 := by
    calc 2 ^ s < 2 ^ 64 := Nat.pow_lt_pow_right (by norm_num) hs
      _ = 18446744073709551616 := by norm_num
  simp [shl64, hs, Nat.shiftLeft_eq, Nat.mod_eq_of_lt (show s < 18446744073709551616 by omega),
    Nat.mod_eq_of_lt hs, Nat.mod_eq_of_lt hlt]

theorem and_shl64_pos_iff {x : UInt64} {s : Nat} (hs : s < 64) :
    x &&& shl64 1 s > 0 ↔ x.toNat.testBit s = true := by
  rw [gt_iff_lt, UInt64.lt_iff_toNat_lt, UInt64.toNat_and, shl64_one_toNat hs, Nat.and_two_pow]
  cases x.toNat.testBit s <;> simp

theorem testBit_or_shl64 {x : UInt64} {s : Nat} (hs : s < 64) (j : Nat) :
    (x ||| shl64 1 s).toNat.testBit j = (x.toNat.testBit j || decide (s = j)) := by
  rw [UInt64.toNat_or, shl64_one_toNat hs, Nat.testBit_or, Nat.testBit_two_pow]

theorem except_bind_eq_ok {ε α β : Type} {x : Except ε α} {f : α → Except ε β} {b : β} :
    (x >>= f) = .ok b ↔ ∃ a, x = .ok a ∧ f a = .ok b := by
  cases x with
  | error e => simp [bind, Except.bind]
  | ok a => simp [bind, Except.bind]

end Go
