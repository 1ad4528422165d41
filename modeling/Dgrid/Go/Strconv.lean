import Dgrid.Go.BytesOrder

/-! Numbers written and read as decimal text: `fmt`'s `%0*d` and `strconv.Atoi`, on byte
strings, and `[]byte(s)` of a string. The digits of a number written with `w` places read back
as the number, and numbers written with the same number of places sort as the numbers do; a
number with more digits than places is written in full, led by a non-zero digit. Nothing here
names the program. -/

namespace Go

/-- `[]byte(s)`: the UTF-8 bytes of a string. -/
def stringBytes (s : String) : Bytes := s.toByteArray.data.toList

theorem stringBytes_inj {s t : String} : stringBytes s = stringBytes t ↔ s = t := by
  rw [stringBytes, stringBytes, ← String.toByteArray_inj]
  constructor
  · intro h
    cases hs : s.toByteArray
    cases ht : t.toByteArray
    rw [hs, ht] at h
    simp only [Array.toList_inj] at h
    rw [h]
  · intro h
    rw [h]

def isDigit (c : UInt8) : Bool := 0x30 ≤ c && c ≤ 0x39

/-- The character of a decimal digit `d < 10`. -/
def digitByte (d : Nat) : UInt8 := (0x30 + d).toUInt8

theorem toNat_digitByte {d : Nat} (hd : d < 10) : (digitByte d).toNat = 0x30 + d := by
  simp only [digitByte, Nat.toUInt8_eq, UInt8.toNat_ofNat', Nat.reducePow]
  omega

theorem isDigit_digitByte {d : Nat} (hd : d < 10) : isDigit (digitByte d) = true := by
  simp only [isDigit, Bool.and_eq_true, decide_eq_true_eq, UInt8.le_iff_toNat_le,
    toNat_digitByte hd]
  simp
  omega

theorem digitByte_lt {d e : Nat} (hde : d < e) (he : e < 10) : digitByte d < digitByte e := by
  rw [UInt8.lt_iff_toNat_lt, toNat_digitByte (by omega), toNat_digitByte he]
  omega

/-- The last `w` decimal digits of `n`, most significant first: `n` led by zeros to `w`
places, when it has at most `w` digits. -/
def zeroPad : Nat → Nat → Bytes
  | 0, _ => []
  | w + 1, n => zeroPad w (n / 10) ++ [digitByte (n % 10)]

@[simp] theorem length_zeroPad (w n : Nat) : (zeroPad w n).length = w := by
  induction w generalizing n with
  | zero => rfl
  | succ w ih => simp [zeroPad, ih]

theorem all_isDigit_zeroPad (w n : Nat) : (zeroPad w n).all isDigit = true := by
  induction w generalizing n with
  | zero => rfl
  | succ w ih => simp [zeroPad, ih, isDigit_digitByte (Nat.mod_lt n (by omega : 10 > 0))]

theorem zeroPad_succ (w n : Nat) :
    zeroPad (w + 1) n = digitByte (n / 10 ^ w % 10) :: zeroPad w n := by
  induction w generalizing n with
  | zero => simp [zeroPad]
  | succ w ih =>
    have hdiv : n / 10 / 10 ^ w = n / 10 ^ (w + 1) := by
      rw [Nat.div_div_eq_div_mul, Nat.pow_succ, Nat.mul_comm]
    rw [zeroPad, ih, hdiv, List.cons_append]
    rfl

theorem zeroPad_mod (w n : Nat) : zeroPad w (n % 10 ^ w) = zeroPad w n := by
  induction w generalizing n with
  | zero => rfl
  | succ w ih =>
    have hdiv : n % 10 ^ (w + 1) / 10 = n / 10 % 10 ^ w := by
      rw [Nat.pow_succ', Nat.mod_mul_right_div_self]
    have hmod : n % 10 ^ (w + 1) % 10 = n % 10 :=
      Nat.mod_mod_of_dvd n (Dvd.intro_left _ (Nat.pow_succ 10 w).symm)
    rw [zeroPad, zeroPad, hdiv, hmod, ih]

theorem bytesCompare_zeroPad {w a b : Nat} (hab : a % 10 ^ w < b % 10 ^ w) :
    bytesCompare (zeroPad w a) (zeroPad w b) = -1 := by
  induction w generalizing a b with
  | zero => simp only [pow_zero, Nat.mod_one] at hab; omega
  | succ w ih =>
    rw [zeroPad_succ, zeroPad_succ]
    -- the number below `10 ^ (w + 1)` is its first digit times `10 ^ w` and the rest
    have hsplit : ∀ n, n % 10 ^ (w + 1) = n % 10 ^ w + 10 ^ w * (n / 10 ^ w % 10) :=
      fun n => Nat.mod_pow_succ
    have hrest : ∀ n, n % 10 ^ w < 10 ^ w := fun n => Nat.mod_lt n (Nat.pow_pos (by omega))
    rw [hsplit, hsplit] at hab
    rcases Nat.lt_trichotomy (a / 10 ^ w % 10) (b / 10 ^ w % 10) with hd | hd | hd
    · exact bytesCompare_cons_lt (digitByte_lt hd (Nat.mod_lt _ (by omega))) _ _
    · rw [bytesCompare_cons_eq (by rw [hd]; exact UInt8.lt_irrefl _)
        (by rw [hd]; exact UInt8.lt_irrefl _), ← zeroPad_mod w a, ← zeroPad_mod w b]
      refine ih ?_
      rw [Nat.mod_mod, Nat.mod_mod]
      rw [hd] at hab
      omega
    · -- a larger first digit makes `a` the larger number
      have hmul : 10 ^ w * (b / 10 ^ w % 10 + 1) ≤ 10 ^ w * (a / 10 ^ w % 10) :=
        Nat.mul_le_mul_left _ hd
      have ha := hrest a
      have hb := hrest b
      rw [Nat.mul_add, Nat.mul_one] at hmul
      generalize 10 ^ w = P at hab hmul ha hb
      omega

theorem bytesCompare_append_of_lt {u v : Bytes} (h : bytesCompare u v = -1)
    (hlen : u.length = v.length) (s t : Bytes) : bytesCompare (u ++ s) (v ++ t) = -1 := by
  induction u generalizing v with
  | nil =>
    obtain rfl : v = [] := List.eq_nil_of_length_eq_zero hlen.symm
    simp at h
  | cons x u ih =>
    cases v with
    | nil => simp at hlen
    | cons y v =>
      rw [bytesCompare_cons_cons] at h
      rw [List.cons_append, List.cons_append, bytesCompare_cons_cons]
      -- a first byte above would make `u` the larger; `split_ifs` drops that case
      split_ifs at h ⊢ with hxy hyx
      · rfl
      · exact ih h (by simpa using hlen)

theorem zeroPad_inj {w a b : Nat} (ha : a < 10 ^ w) (hb : b < 10 ^ w) :
    zeroPad w a = zeroPad w b ↔ a = b := by
  refine ⟨fun h => ?_, fun h => h ▸ rfl⟩
  rcases Nat.lt_trichotomy a b with hab | hab | hab
  · have := bytesCompare_zeroPad (w := w) (a := a) (b := b)
      (by rwa [Nat.mod_eq_of_lt ha, Nat.mod_eq_of_lt hb])
    rw [h, bytesCompare_self] at this
    cases this
  · exact hab
  · have := bytesCompare_zeroPad (w := w) (a := b) (b := a)
      (by rwa [Nat.mod_eq_of_lt ha, Nat.mod_eq_of_lt hb])
    rw [h, bytesCompare_self] at this
    cases this

/-- The value of a string of decimal digits. -/
def digitsValue (s : Bytes) : Nat := s.foldl (fun n c => 10 * n + (c.toNat - 0x30)) 0

theorem digitsValue_zeroPad (w n : Nat) : digitsValue (zeroPad w n) = n % 10 ^ w := by
  induction w generalizing n with
  | zero => simp [zeroPad, digitsValue, Nat.mod_one]
  | succ w ih =>
    have hlast : digitsValue (zeroPad w (n / 10) ++ [digitByte (n % 10)]) =
        10 * digitsValue (zeroPad w (n / 10)) + n % 10 := by
      rw [digitsValue, List.foldl_append, ← digitsValue, List.foldl_cons, List.foldl_nil,
        toNat_digitByte (Nat.mod_lt n (by omega))]
      omega
    rw [zeroPad, hlast, ih, Nat.pow_succ', Nat.mod_mul]
    omega

/-- `fmt.Sprintf("%0*d", wid, x)`: `fmtInteger` writes the decimal digits of `|x|`, leads them
with zeros to `wid` places, one fewer when a sign takes one, and puts `-` in front of a negative
`x`. -/
def formatInt (wid : Nat) (x : Int) : Bytes :=
  let prec := if x < 0 then wid - 1 else wid
  let digits := zeroPad (max prec (Nat.log 10 x.natAbs + 1)) x.natAbs
  if x < 0 then 0x2D :: digits else digits

theorem formatInt_of_lt {wid : Nat} {x : Int} (hw : 0 < wid) (h0 : 0 ≤ x) (hx : x < 10 ^ wid) :
    formatInt wid x = zeroPad wid x.toNat := by
  have hlog : Nat.log 10 x.natAbs + 1 ≤ wid := by
    rcases Nat.eq_zero_or_pos x.natAbs with hz | hpos
    · rw [hz, Nat.log_zero_right]
      omega
    · have hxn : x.natAbs < 10 ^ wid := by
        zify
        rw [abs_of_nonneg h0]
        exact hx
      have := Nat.log_lt_of_lt_pow (b := 10) hpos.ne' hxn
      omega
  have habs : x.natAbs = x.toNat := by omega
  simp only [formatInt, if_neg (Int.not_lt.mpr h0)]
  rw [Nat.max_eq_left hlog, habs]

theorem formatInt_of_nonneg {wid : Nat} {x : Int} (h0 : 0 ≤ x) :
    formatInt wid x = zeroPad (max wid (Nat.log 10 x.toNat + 1)) x.toNat := by
  have habs : x.natAbs = x.toNat := by omega
  simp only [formatInt, if_neg (Int.not_lt.mpr h0), habs]

theorem formatInt_of_neg {wid : Nat} {x : Int} (h : x < 0) :
    formatInt wid x = 0x2D :: zeroPad (max (wid - 1) (Nat.log 10 x.natAbs + 1)) x.natAbs := by
  simp only [formatInt, if_pos h]

theorem all_isDigit_formatInt {wid : Nat} {x : Int} (h0 : 0 ≤ x) :
    (formatInt wid x).all isDigit = true := by
  rw [formatInt_of_nonneg h0]
  exact all_isDigit_zeroPad _ _

theorem not_mem_formatInt {c : UInt8} (hc : isDigit c = false) (hs : c ≠ 0x2D) (wid : Nat)
    (x : Int) : c ∉ formatInt wid x := by
  have hz : ∀ w n, c ∉ zeroPad w n := by
    intro w n hm
    have := List.all_eq_true.mp (all_isDigit_zeroPad w n) c hm
    rw [hc] at this
    cases this
  by_cases h : x < 0
  · rw [formatInt_of_neg h, List.mem_cons, not_or]
    exact ⟨hs, hz _ _⟩
  · rw [formatInt_of_nonneg (Int.not_lt.mp h)]
    exact hz _ _

theorem formatInt_head {wid : Nat} {x : Int} (hx : 10 ^ (wid - 1) ≤ x) :
    ∃ d rest, formatInt wid x = digitByte d :: rest ∧ 0 < d ∧ d < 10 := by
  have h0 : 0 < x := lt_of_lt_of_le (by positivity) hx
  set u := x.natAbs with hu
  have hux : (u : Int) = x := Int.natAbs_of_nonneg h0.le
  have hupos : u ≠ 0 := by omega
  -- `u` has `log u + 1` digits, at least `wid`
  have hlow : 10 ^ Nat.log 10 u ≤ u := Nat.pow_log_le_self 10 hupos
  have hhigh : u < 10 ^ (Nat.log 10 u + 1) := Nat.lt_pow_succ_log_self (by omega) u
  have hwid : wid - 1 ≤ Nat.log 10 u := by
    have hx' : ((10 ^ (wid - 1) : Nat) : Int) ≤ u := hux ▸ (by exact_mod_cast hx)
    exact Nat.le_log_of_pow_le (by omega) (by exact_mod_cast hx')
  have hmax : max (wid - 1 + 1) (Nat.log 10 u + 1) = Nat.log 10 u + 1 := by omega
  refine ⟨u / 10 ^ Nat.log 10 u, zeroPad (Nat.log 10 u) u, ?_, ?_, ?_⟩
  · simp only [formatInt, if_neg (Int.not_lt.mpr h0.le)]
    rw [← hu]
    rcases Nat.eq_zero_or_pos wid with hw | hw
    · rw [hw, Nat.zero_max, zeroPad_succ, Nat.mod_eq_of_lt]
      exact Nat.div_lt_of_lt_mul (by rw [← Nat.pow_succ]; exact hhigh)
    · rw [show wid = wid - 1 + 1 by omega, hmax, zeroPad_succ, Nat.mod_eq_of_lt]
      exact Nat.div_lt_of_lt_mul (by rw [← Nat.pow_succ]; exact hhigh)
  · exact Nat.div_pos hlow (Nat.pow_pos (by omega))
  · exact Nat.div_lt_of_lt_mul (by rw [← Nat.pow_succ]; exact hhigh)

/-- `strconv.Atoi(s)` with a 64-bit `int`: a sign or none, then decimal digits, at least one,
whose value lies in `int64`; `none` is the error. -/
def Atoi (s : Bytes) : Option Int :=
  let neg := s.head? == some 0x2D
  let digits := if neg || s.head? == some 0x2B then s.drop 1 else s
  let n : Int := if neg then -(digitsValue digits : Int) else digitsValue digits
  if digits ≠ [] ∧ digits.all isDigit ∧ InInt64 n then some n else none

theorem Atoi_zeroPad {w n : Nat} (hw : 0 < w) (hn : n < 10 ^ w) (h64 : (n : Int) ≤ maxInt64) :
    Atoi (zeroPad w n) = some (n : Int) := by
  obtain ⟨w, rfl⟩ : ∃ v, w = v + 1 := ⟨w - 1, by omega⟩
  have hd : n / 10 ^ w % 10 < 10 := Nat.mod_lt _ (by omega)
  -- the first character is a digit, neither sign
  have hhead : (zeroPad (w + 1) n).head? = some (digitByte (n / 10 ^ w % 10)) := by
    rw [zeroPad_succ, List.head?_cons]
  have hne : ∀ c : UInt8, c < 0x30 → digitByte (n / 10 ^ w % 10) ≠ c := by
    intro c hc h
    have hd' := toNat_digitByte hd
    rw [h] at hd'
    rw [UInt8.lt_iff_toNat_lt, hd'] at hc
    simp at hc
  have hminus : ((zeroPad (w + 1) n).head? == some 0x2D) = false := by
    rw [hhead]
    simpa using hne 0x2D (by decide)
  have hplus : ((zeroPad (w + 1) n).head? == some 0x2B) = false := by
    rw [hhead]
    simpa using hne 0x2B (by decide)
  have hval : (digitsValue (zeroPad (w + 1) n) : Int) = n := by
    rw [digitsValue_zeroPad, Nat.mod_eq_of_lt hn]
  simp only [Atoi, hminus, hplus, Bool.false_or, Bool.false_eq_true, if_false, hval]
  rw [if_pos ⟨by rw [zeroPad_succ]; exact List.cons_ne_nil _ _, all_isDigit_zeroPad _ _, by
    constructor <;> simp only [minInt64, maxInt64] at h64 ⊢ <;> omega⟩]

theorem Atoi_formatInt {wid : Nat} {x : Int} (h0 : 0 ≤ x) (h64 : x ≤ maxInt64) :
    Atoi (formatInt wid x) = some x := by
  rw [formatInt_of_nonneg h0]
  have hlt : x.toNat < 10 ^ (max wid (Nat.log 10 x.toNat + 1)) :=
    lt_of_lt_of_le (Nat.lt_pow_succ_log_self (by omega) _)
      (Nat.pow_le_pow_right (by omega) (le_max_right _ _))
  rw [Atoi_zeroPad (by omega) hlt (by omega), Int.toNat_of_nonneg h0]

end Go
