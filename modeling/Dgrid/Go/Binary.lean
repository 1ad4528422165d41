import Dgrid.Go.Bytes

/-! `encoding/binary`: unsigned varints, seven bits a byte, least significant group first, the
high bit set on every byte but the last; and the fixed-width little-endian words of
`binary.LittleEndian`. Values are the `uint64` read as `Nat`. -/

namespace Go
open Go

def MaxVarintLen64 : Nat := 10

/-- The bytes `binary.PutUvarint(buf, x)` writes. -/
def PutUvarint (x : Nat) : Bytes :=
  if x < 128 then [x.toUInt8] else (x % 128 + 128).toUInt8 :: PutUvarint (x / 128)
termination_by x

/-- The loop of `binary.Uvarint`, at byte `i` with shift `s` and the value `x` read so far. -/
def uvarintLoop (x s i : Nat) : Bytes → Nat × Int
  | [] => (0, 0)
  | b :: rest =>
      if i = MaxVarintLen64 then (0, -((i : Int) + 1))
      else if b < 0x80 then
        if i = MaxVarintLen64 - 1 ∧ b > 1 then (0, -((i : Int) + 1))
        else ((x ||| b.toNat <<< s) % 2 ^ 64, i + 1)
      else uvarintLoop ((x ||| (b &&& 0x7f).toNat <<< s) % 2 ^ 64) (s + 7) (i + 1) rest

/-- `binary.Uvarint(buf)`: the value and the bytes read; `0` bytes when the buffer ends first,
minus the bytes read on overflow. -/
def Uvarint (buf : Bytes) : Nat × Int := uvarintLoop 0 0 0 buf

/-- The bytes `binary.PutVarint(buf, x)` writes: the zigzag encoding of the `int64`, a value `x ≥ 0`
as `2x` and a negative one as `-2x - 1`, as an unsigned varint. -/
def PutVarint (x : Int) : Bytes :=
  PutUvarint (if 0 ≤ x then 2 * x.toNat else 2 * (-x).toNat - 1)

theorem PutUvarint_of_lt {x : Nat} (h : x < 128) : PutUvarint x = [x.toUInt8] := by
  rw [PutUvarint, if_pos h]

theorem PutUvarint_of_ge {x : Nat} (h : ¬x < 128) :
    PutUvarint x = (x % 128 + 128).toUInt8 :: PutUvarint (x / 128) := by
  rw [PutUvarint, if_neg h]

theorem PutUvarint_ne_nil (x : Nat) : PutUvarint x ≠ [] := by
  by_cases h : x < 128
  · simp [PutUvarint_of_lt h]
  · simp [PutUvarint_of_ge h]

theorem PutUvarint_head (x : Nat) :
    ∃ rest, PutUvarint x = (if x < 128 then x else x % 128 + 128).toUInt8 :: rest ∧
      (x < 128 → rest = []) := by
  by_cases h : x < 128
  · exact ⟨[], by rw [PutUvarint_of_lt h, if_pos h], fun _ => rfl⟩
  · exact ⟨_, by rw [PutUvarint_of_ge h, if_neg h], fun h' => absurd h' h⟩

theorem PutUvarint_append_inj {a b : Nat} {r r' : Bytes} (h : PutUvarint a ++ r = PutUvarint b ++ r') :
    a = b ∧ r = r' := by
  induction a using Nat.strongRecOn generalizing b with
  | ind a ih =>
    by_cases ha : a < 128 <;> by_cases hb : b < 128
    · rw [PutUvarint_of_lt ha, PutUvarint_of_lt hb, List.singleton_append,
        List.singleton_append, List.cons.injEq] at h
      have hab := congrArg UInt8.toNat h.1
      simp only [Nat.toUInt8_eq, UInt8.toNat_ofNat'] at hab
      exact ⟨by omega, h.2⟩
    · -- a last byte against a byte with the high bit
      rw [PutUvarint_of_lt ha, PutUvarint_of_ge hb, List.singleton_append, List.cons_append,
        List.cons.injEq] at h
      have hab := congrArg UInt8.toNat h.1
      simp only [Nat.toUInt8_eq, UInt8.toNat_ofNat'] at hab
      omega
    · rw [PutUvarint_of_ge ha, PutUvarint_of_lt hb, List.singleton_append, List.cons_append,
        List.cons.injEq] at h
      have hab := congrArg UInt8.toNat h.1
      simp only [Nat.toUInt8_eq, UInt8.toNat_ofNat'] at hab
      omega
    · -- the low seven bits agree, and the rest is a varint of the high bits
      rw [PutUvarint_of_ge ha, PutUvarint_of_ge hb, List.cons_append, List.cons_append,
        List.cons.injEq] at h
      have hab := congrArg UInt8.toNat h.1
      simp only [Nat.toUInt8_eq, UInt8.toNat_ofNat'] at hab
      obtain ⟨hdiv, hr⟩ := ih (a / 128) (by omega) h.2
      exact ⟨by omega, hr⟩

theorem PutVarint_append_inj {a b : Int} {r r' : Bytes} (h : PutVarint a ++ r = PutVarint b ++ r') :
    a = b ∧ r = r' := by
  obtain ⟨hab, hr⟩ := PutUvarint_append_inj h
  refine ⟨?_, hr⟩
  split_ifs at hab <;> omega

theorem or_shiftLeft_eq_add {x b s : Nat} (hx : x < 2 ^ s) : x ||| b <<< s = x + b * 2 ^ s := by
  rw [Nat.shiftLeft_eq, Nat.or_comm, Nat.mul_comm, ← Nat.two_pow_add_eq_or_of_lt hx]
  ring

theorem uvarintLoop_PutUvarint (rest : Bytes) :
    ∀ (v x i : Nat), x < 2 ^ (7 * i) → x + v * 2 ^ (7 * i) < 2 ^ 64 → i ≤ 9 →
      uvarintLoop x (7 * i) i (PutUvarint v ++ rest) =
        (x + v * 2 ^ (7 * i), ((i + (PutUvarint v).length : Nat) : Int)) := by
  intro v
  induction v using Nat.strongRecOn with
  | ind v ih =>
    intro x i hx hfit hi
    have hpow : 2 ^ (7 * (i + 1)) = 2 ^ (7 * i) * 128 := by
      rw [Nat.mul_add, Nat.pow_add]
    by_cases hv : v < 128
    · -- the last byte: below `128`, and at byte 9 at most `1`
      have hb : (v.toUInt8).toNat = v := by simp; omega
      rw [PutUvarint_of_lt hv, List.singleton_append, uvarintLoop, if_neg (by unfold MaxVarintLen64; omega),
        if_pos (by simp [UInt8.lt_iff_toNat_lt, hb]; omega), if_neg ?_, hb, or_shiftLeft_eq_add hx,
        Nat.mod_eq_of_lt hfit]
      · rfl
      · rintro ⟨h9, h1⟩
        unfold MaxVarintLen64 at h9
        subst h9
        simp only [gt_iff_lt, UInt8.lt_iff_toNat_lt, hb] at h1
        have : 2 * 2 ^ (7 * 9) ≤ v * 2 ^ (7 * 9) := Nat.mul_le_mul_right _ h1
        norm_num at this hfit
        omega
    · -- a byte with the high bit: seven more bits are read and the walk goes on
      have hb : ((v % 128 + 128).toUInt8).toNat = v % 128 + 128 := by simp; omega
      have hlow : ((v % 128 + 128).toUInt8 &&& 0x7f).toNat = v % 128 := by
        rw [UInt8.toNat_and, hb]
        have : (0x7f : UInt8).toNat = 2 ^ 7 - 1 := rfl
        rw [this, Nat.and_two_pow_sub_one_eq_mod]
        omega
      have hdiv := Nat.div_add_mod v 128
      have hbig : 2 ^ (7 * (i + 1)) ≤ v * 2 ^ (7 * i) := by
        rw [hpow, Nat.mul_comm]
        exact Nat.mul_le_mul_right _ (by omega : 128 ≤ v)
      have hi8 : i ≤ 8 := by
        by_contra hi9
        have : 2 ^ 64 ≤ 2 ^ (7 * (i + 1)) := Nat.pow_le_pow_right (by norm_num) (by omega)
        omega
      have hx' : x + v % 128 * 2 ^ (7 * i) < 2 ^ (7 * (i + 1)) := by
        rw [hpow]
        have := Nat.mul_le_mul_right (2 ^ (7 * i)) (show v % 128 ≤ 127 by omega)
        omega
      have hsum : x + v % 128 * 2 ^ (7 * i) + v / 128 * 2 ^ (7 * (i + 1)) =
          x + v * 2 ^ (7 * i) := by
        rw [hpow]
        nth_rewrite 3 [← hdiv]
        ring
      rw [PutUvarint_of_ge hv, List.cons_append, uvarintLoop, if_neg (by unfold MaxVarintLen64; omega),
        if_neg (by rw [UInt8.lt_iff_toNat_lt, hb]; simp), hlow, or_shiftLeft_eq_add hx,
        Nat.mod_eq_of_lt (by omega), show 7 * i + 7 = 7 * (i + 1) by ring,
        ih (v / 128) (by omega) _ (i + 1) hx' (by omega) (by omega), hsum, List.length_cons]
      congr 1
      omega

theorem Uvarint_PutUvarint_append {v : Nat} (hv : v < 2 ^ 64) (rest : Bytes) :
    Uvarint (PutUvarint v ++ rest) = (v, ((PutUvarint v).length : Int)) := by
  have := uvarintLoop_PutUvarint rest v 0 0 (by norm_num) (by simpa using hv) (by norm_num)
  simpa [Uvarint] using this

/-- The `w` bytes of `v`, low byte first; `v` is cut to `w` bytes as Go's conversion to the
unsigned type of that width cuts it. -/
def putLE : Nat → Nat → Bytes
  | 0, _ => []
  | w + 1, v => (v % 256).toUInt8 :: putLE w (v / 256)

/-- The value of bytes read low byte first. -/
def getLE : Bytes → Nat
  | [] => 0
  | b :: bs => b.toNat + 256 * getLE bs

namespace LittleEndian

/-- The four bytes `binary.LittleEndian.PutUint32(b, v)` writes. -/
def PutUint32 (v : Nat) : Bytes := putLE 4 v

/-- `binary.LittleEndian.Uint32(b)`, of a slice of at least four bytes. -/
def Uint32 (b : Bytes) : Nat := getLE (b.take 4)

/-- The eight bytes `binary.LittleEndian.PutUint64(b, v)` writes. -/
def PutUint64 (v : Nat) : Bytes := putLE 8 v

/-- `binary.LittleEndian.Uint64(b)`, of a slice of at least eight bytes. -/
def Uint64 (b : Bytes) : Nat := getLE (b.take 8)

end LittleEndian

namespace BigEndian

/-- The eight bytes `binary.BigEndian.PutUint64(b, v)` writes. -/
def PutUint64 (v : Nat) : Bytes := (putLE 8 v).reverse

/-- The four bytes `binary.BigEndian.PutUint32(b, v)` writes. -/
def PutUint32 (v : Nat) : Bytes := (putLE 4 v).reverse

end BigEndian

@[simp] theorem length_putLE (w v : Nat) : (putLE w v).length = w := by
  induction w generalizing v with
  | zero => rfl
  | succ w ih => simp [putLE, ih]

theorem getLE_putLE (w v : Nat) : getLE (putLE w v) = v % 256 ^ w := by
  induction w generalizing v with
  | zero => simp [putLE, getLE, Nat.mod_one]
  | succ w ih =>
    rw [putLE, getLE, ih, pow_succ', Nat.mod_mul]
    simp

theorem putLE_mod (w v : Nat) : putLE w (v % 256 ^ w) = putLE w v := by
  induction w generalizing v with
  | zero => rfl
  | succ w ih =>
    rw [putLE, putLE, pow_succ', Nat.mod_mul_right_mod, Nat.mod_mul_right_div_self, ih]

end Go
