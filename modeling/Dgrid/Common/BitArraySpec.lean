import Dgrid.Common.BitArray

/-! `BitArray` against the bits it stands for, its first `Bits`. The operations work on whole
words, so what they give depends on the bits of the last word past the size as well, and `Or`
reads only as many words of its argument as the receiver has. Arrays whose bits past the size
are zero (`Clean`) are made by `NewBitArray` and kept by `SetIndex`, `And`, `Sub` and `Or`; on
them `And`, `Sub` and `Not` are the operations on bit vectors, and `Or` is one when the argument
has no more words than the receiver. -/

namespace Dgrid.Common.BitArray
open Go

/-! ### Words -/

section Words

@[simp] theorem testBit_word_or (a b : UInt64) (k : Nat) :
    (a ||| b).toNat.testBit k = (a.toNat.testBit k || b.toNat.testBit k) := by
  rw [UInt64.toNat_or, Nat.testBit_or]

@[simp] theorem testBit_word_and (a b : UInt64) (k : Nat) :
    (a &&& b).toNat.testBit k = (a.toNat.testBit k && b.toNat.testBit k) := by
  rw [UInt64.toNat_and, Nat.testBit_and]

@[simp] theorem testBit_word_not (a : UInt64) (k : Nat) :
    (~~~a).toNat.testBit k = (decide (k < 64) && !a.toNat.testBit k) := by
  rw [← UInt64.toNat_toBitVec, ← UInt64.toNat_toBitVec, BitVec.testBit_toNat,
    BitVec.testBit_toNat, UInt64.toBitVec_not, BitVec.getLsbD_not]

theorem word_eq_zero_iff (e : UInt64) : e = 0 ↔ ∀ k, e.toNat.testBit k = false := by
  constructor
  · rintro rfl k
    simp
  · intro h
    apply UInt64.toNat_inj.mp
    simpa using Nat.zero_of_testBit_eq_false h

theorem wordCount_eq (bits : Int) : ((bits + 63).tdiv 64).toNat = (bits.toNat + 63) / 64 := by
  rcases le_or_gt 0 (bits + 63) with h | h
  · rw [Int.tdiv_eq_ediv_of_nonneg h]
    omega
  · -- below `-63` the quotient is not positive
    have hneg : (bits + 63).tdiv 64 = -((-(bits + 63)).tdiv 64) := by rw [Int.neg_tdiv, neg_neg]
    rw [hneg, Int.tdiv_eq_ediv_of_nonneg (by omega)]
    omega

theorem getD_copy_replicate {α : Type} (L : Nat) (d : α) (src : List α) (w : Nat) :
    (Go.copy (List.replicate L d) src).getD w d = if w < L then src.getD w d else d := by
  rw [List.getD_eq_getElem?_getD, getElem?_copy]
  by_cases hw : w < L <;> by_cases hs : w < src.length
  · simp [hw, hs, List.getD_eq_getElem?_getD]
  · simp [hw, hs, List.getD_eq_getElem?_getD]
  · simp [hw]
  · simp [hw]

theorem getD_set (l : List UInt64) (n w : Nat) (v : UInt64) :
    (l.set n v).getD w 0 = if w = n ∧ n < l.length then v else l.getD w 0 := by
  simp only [List.getD_eq_getElem?_getD, List.getElem?_set]
  split_ifs <;> simp_all

theorem wordsLoop_spec (op : UInt64 → UInt64 → UInt64) (c o : List UInt64) :
    ∀ n, n ≤ c.length → n ≤ o.length →
      ∃ r, wordsLoop op n c o = .ok r ∧ r.length = c.length ∧
        ∀ w, r.getD w 0 = if w < n then op (c.getD w 0) (o.getD w 0) else c.getD w 0
  | 0, _, _ => ⟨c, rfl, rfl, fun w => by simp⟩
  | n + 1, hc, ho => by
      obtain ⟨r, hr, hlen, hget⟩ := wordsLoop_spec op c o n (by omega) (by omega)
      have hn : n < r.length := by omega
      -- the last round updates word `n`, which the earlier rounds left as it was
      refine ⟨r.set n (op r[n] o[n]), ?_, by simp [hlen], fun w => ?_⟩
      · unfold wordsLoop at hr ⊢
        rw [List.range_succ, List.foldlM_append, hr, Result.ok_bind, List.foldlM_cons,
          index_of_lt (by omega : n < o.length), Result.ok_bind, update_of_lt hn]
        rfl
      · have hrn : r[n] = c.getD n 0 := by
          rw [← List.getD_eq_getElem r 0 hn, hget, if_neg (Nat.lt_irrefl n)]
        rw [getD_set, hrn, ← List.getD_eq_getElem o 0 (by omega)]
        by_cases hw : w = n
        · simp [hw, hn]
        · rw [if_neg (fun h => hw h.1), hget]
          simp only [Nat.lt_succ_iff_lt_or_eq, hw, or_false]

end Words

/-! ### The operations, word by word -/

section Ops

variable {bA o : BitArray}

theorem Wf.length_eq (h : bA.Wf) : bA.Elems.length = (bA.Bits.toNat + 63) / 64 := by
  rw [h, wordCount_eq]

theorem bit_of_length_le {j : Nat} (h : bA.Elems.length ≤ j / 64) : bA.bit j = false := by
  rw [bit, List.getD_eq_default _ _ h]
  simp

theorem Wf.word_lt (h : bA.Wf) {j : Nat} (hj : (j : Int) < bA.Bits) : j / 64 < bA.Elems.length := by
  rw [h.length_eq]
  omega

@[simp] theorem copy_eq (bA : BitArray) : bA.copy = bA := by
  obtain ⟨Bits, Elems⟩ := bA
  simp [copy, Go.copy]

theorem copyBits_length (bA : BitArray) (bits : Int) :
    (bA.copyBits bits).Elems.length = ((bits + 63).tdiv 64).toNat := by
  simp [copyBits]

theorem copyBits_getD (bA : BitArray) (bits : Int) (w : Nat) :
    (bA.copyBits bits).Elems.getD w 0 =
      if w < ((bits + 63).tdiv 64).toNat then bA.Elems.getD w 0 else 0 :=
  getD_copy_replicate _ _ _ _

theorem Or_spec (ha : bA.Wf) (ho : o.Wf) :
    ∃ c, Or (some bA) (some o) = .ok (some c) ∧ c.Wf ∧ c.Bits = max bA.Bits o.Bits ∧
      ∀ j, c.bit j = (decide (j / 64 < bA.Elems.length) && (bA.bit j || o.bit j)) := by
  have hA := ha.length_eq
  have hO := ho.length_eq
  have hL := wordCount_eq (max bA.Bits o.Bits)
  have hAL : bA.Elems.length ≤ ((max bA.Bits o.Bits + 63).tdiv 64).toNat := by omega
  obtain ⟨r, hr, hlen, hget⟩ := wordsLoop_spec (· ||| ·) (bA.copyBits (max bA.Bits o.Bits)).Elems
    o.Elems (min bA.Elems.length o.Elems.length)
    (by rw [copyBits_length, hL]; omega) (Nat.min_le_right _ _)
  refine ⟨{ bA.copyBits (max bA.Bits o.Bits) with Elems := r }, ?_, ?_, rfl, fun j => ?_⟩
  · rw [Or, hr]
    rfl
  · simp only [Wf]
    rw [hlen, copyBits_length]
    rfl
  · simp only [bit]
    rw [hget, copyBits_getD]
    -- words past the receiver's are zero in the receiver; past the argument's, in it
    by_cases hw : j / 64 < bA.Elems.length
    · have hwL := lt_of_lt_of_le hw hAL
      by_cases hwo : j / 64 < o.Elems.length
      · simp [hw, hwo, hwL]
      · rw [List.getD_eq_default o.Elems 0 (Nat.le_of_not_lt hwo)]
        simp [hw, hwo, hwL]
    · rw [List.getD_eq_default bA.Elems 0 (Nat.le_of_not_lt hw)]
      simp [hw]

theorem And_spec (ho : o.Wf) :
    ∃ c, And (some bA) (some o) = .ok (some c) ∧ c.Wf ∧ c.Bits = min bA.Bits o.Bits ∧
      ∀ j, c.bit j = (decide (j / 64 < c.Elems.length) && (bA.bit j && o.bit j)) := by
  have hO := ho.length_eq
  have hL := wordCount_eq (min bA.Bits o.Bits)
  obtain ⟨r, hr, hlen, hget⟩ := wordsLoop_spec (· &&& ·) (bA.copyBits (min bA.Bits o.Bits)).Elems
    o.Elems (bA.copyBits (min bA.Bits o.Bits)).Elems.length (le_refl _)
    (by rw [copyBits_length, hL, hO]; omega)
  refine ⟨{ bA.copyBits (min bA.Bits o.Bits) with Elems := r }, ?_, ?_, rfl, fun j => ?_⟩
  · simp only [And, and, hr]
    rfl
  · simp only [Wf]
    rw [hlen, copyBits_length]
    rfl
  · simp only [bit]
    rw [hget, copyBits_getD, hlen, copyBits_length]
    by_cases hw : j / 64 < ((min bA.Bits o.Bits + 63).tdiv 64).toNat
    · simp [hw]
    · simp [hw]

theorem Sub_spec (ha : bA.Wf) :
    ∃ c, Sub (some bA) (some o) = .ok (some c) ∧ c.Wf ∧ c.Bits = bA.Bits ∧
      ∀ j, c.bit j = (bA.bit j && !o.bit j) := by
  have hA := ha
  obtain ⟨r, hr, hlen, hget⟩ := wordsLoop_spec (fun a b => a &&& ~~~b) (bA.copyBits bA.Bits).Elems
    o.Elems (min bA.Elems.length o.Elems.length)
    (by rw [copyBits_length, ← hA]; omega) (Nat.min_le_right _ _)
  refine ⟨{ bA.copyBits bA.Bits with Elems := r }, ?_, ?_, rfl, fun j => ?_⟩
  · rw [Sub, hr]
    rfl
  · simp only [Wf]
    rw [hlen, copyBits_length]
    rfl
  · simp only [bit]
    rw [hget, copyBits_getD, ← hA]
    have hk : j % 64 < 64 := Nat.mod_lt _ (by norm_num)
    -- past either array's words one side is zero, and and-not with zero changes nothing
    by_cases hw : j / 64 < bA.Elems.length
    · by_cases hwo : j / 64 < o.Elems.length
      · rw [if_pos (Nat.lt_min.mpr ⟨hw, hwo⟩), if_pos hw, testBit_word_and, testBit_word_not,
          decide_eq_true hk, Bool.true_and]
      · rw [if_neg (fun h => hwo (Nat.lt_min.mp h).2), if_pos hw,
          List.getD_eq_default o.Elems 0 (Nat.le_of_not_lt hwo)]
        simp
    · rw [if_neg (fun h => hw (Nat.lt_min.mp h).1), if_neg hw,
        List.getD_eq_default bA.Elems 0 (Nat.le_of_not_lt hw)]
      simp

theorem not_bit (bA : BitArray) (j : Nat) :
    bA.not.bit j = (decide (j / 64 < bA.Elems.length) && !bA.bit j) := by
  simp only [not, copy_eq, bit, List.getD_eq_getElem?_getD, List.getElem?_map]
  have hk : j % 64 < 64 := Nat.mod_lt _ (by norm_num)
  by_cases hw : j / 64 < bA.Elems.length
  · rw [List.getElem?_eq_getElem hw, Option.map_some, Option.getD_some, testBit_word_not,
      decide_eq_true hk, decide_eq_true hw]
    rfl
  · simp [hw]

theorem not_wf (h : bA.Wf) : bA.not.Wf := by
  simpa [Wf, not] using h

theorem Update_bit (bA o : BitArray) (j : Nat) :
    ∃ c, Update (some bA) (some o) = some c ∧ c.Bits = bA.Bits ∧
      c.Elems.length = bA.Elems.length ∧
      c.bit j = if j / 64 < o.Elems.length ∧ j / 64 < bA.Elems.length then o.bit j
        else bA.bit j := by
  refine ⟨_, rfl, rfl, length_copy _ _, ?_⟩
  simp only [bit, List.getD_eq_getElem?_getD, getElem?_copy]
  split_ifs <;> rfl

theorem setIndex_spec (hw : bA.Wf) {i : Nat} (hi : (i : Int) < bA.Bits) (v : Bool) :
    ∃ bA', bA.setIndex i v = .ok (true, bA') ∧ bA'.Wf ∧ bA'.Bits = bA.Bits ∧
      ∀ j, bA'.bit j = if j = i then v else bA.bit j := by
  have hlt := word_lt hw hi
  have hk : i % 64 < 64 := Nat.mod_lt _ (by norm_num)
  have hmask : ∀ k, (shl64 1 (i % 64)).toNat.testBit k = decide (i % 64 = k) := fun k => by
    rw [shl64_one_toNat hk, Nat.testBit_two_pow]
  refine ⟨{ bA with Elems := bA.Elems.set (i / 64) (if v then bA.Elems[i / 64] ||| shl64 1 (i % 64)
    else bA.Elems[i / 64] &&& ~~~shl64 1 (i % 64)) }, ?_, by simpa [Wf] using hw, rfl, fun j => ?_⟩
  · rw [setIndex, if_neg (by omega)]
    dsimp only
    rw [shift_eq, tdiv_word, update_of_lt hlt]
    rfl
  · simp only [bit]
    rw [getD_set]
    by_cases hj : j / 64 = i / 64
    · -- the word of bit `i`: only its bit `i % 64` changes
      have hji : j = i ↔ i % 64 = j % 64 := by omega
      rw [if_pos ⟨hj, hlt⟩, hj, List.getD_eq_getElem _ _ hlt]
      have hjk : j % 64 < 64 := Nat.mod_lt _ (by norm_num)
      cases v <;> by_cases h : j = i <;> simp [hmask, h, hji.not.mp, hjk, -UInt64.toNat_not]
    · have hne : j ≠ i := fun h => hj (h ▸ rfl)
      rw [if_neg (fun h => hj h.1), if_neg hne]

theorem length_of_update {s s' : List UInt64} {i : Int} {f : UInt64 → UInt64}
    (h : update s i f = .ok s') : s'.length = s.length := by
  unfold update at h
  by_cases hi : 0 ≤ i ∧ i < s.length
  · rw [if_pos hi] at h
    cases h
    simp
  · rw [if_neg hi] at h
    cases h

theorem setIndex_wf (hw : bA.Wf) {i : Int} {v : Bool} {r : Bool} {bA' : BitArray}
    (h : bA.setIndex i v = .ok (r, bA')) : bA'.Wf ∧ bA'.Bits = bA.Bits := by
  unfold setIndex at h
  by_cases hi : i ≥ bA.Bits
  · rw [if_pos hi] at h
    cases h
    exact ⟨hw, rfl⟩
  · rw [if_neg hi] at h
    dsimp only at h
    obtain ⟨Elems, hupd, h⟩ := Result.bind_eq_ok.mp h
    cases h
    refine ⟨?_, rfl⟩
    show Elems.length = _
    rw [length_of_update hupd]
    exact hw

end Ops

/-! ### The bits -/

/-- The bits an array stands for: its first `Bits`. -/
def toBits (bA : BitArray) : List Bool := (List.range bA.Bits.toNat).map bA.bit

@[simp] theorem length_toBits (bA : BitArray) : (toBits bA).length = bA.Bits.toNat := by
  simp [toBits]

theorem getElem_toBits (bA : BitArray) {j : Nat} (h : j < (toBits bA).length) :
    (toBits bA)[j] = bA.bit j := by
  simp [toBits]

/-- A well-formed array whose bits past the size are zero. -/
structure Clean (bA : BitArray) : Prop where
  wf : bA.Wf
  pad : ∀ j : Nat, bA.Bits ≤ j → bA.bit j = false

section Clean

variable {bA o : BitArray}

theorem Clean.getD_toBits (h : bA.Clean) (j : Nat) : (toBits bA).getD j false = bA.bit j := by
  by_cases hj : j < bA.Bits.toNat
  · rw [List.getD_eq_getElem _ _ (by simpa using hj), getElem_toBits]
  · rw [List.getD_eq_default _ _ (by simpa using hj), h.pad j (by omega)]

theorem clean_newBitArray {bits : Int} (h : NewBitArray bits = some bA) : bA.Clean :=
  ⟨(newBitArray_wf h).1, fun j _ => bit_newBitArray h j⟩

theorem Clean.setIndex {i : Nat} {v r : Bool} {bA' : BitArray} (hc : bA.Clean)
    (h : bA.setIndex i v = .ok (r, bA')) : bA'.Clean := by
  obtain ⟨hw', hbits⟩ := setIndex_wf hc.wf h
  refine ⟨hw', fun j hj => ?_⟩
  -- a write in range leaves the bits past the size alone
  by_cases hi : (i : Int) < bA.Bits
  · obtain ⟨bA'', h', -, -, hbit⟩ := setIndex_spec hc.wf hi v
    rw [h'] at h
    cases h
    rw [hbit, if_neg (by omega)]
    exact hc.pad j (by omega)
  · rw [BitArray.setIndex, if_pos (by omega)] at h
    cases h
    exact hc.pad j hj

end Clean

/-! ### The bit-vector operations -/

/-- Or of two bit vectors, the shorter padded with zeros. -/
def vecOr (a b : List Bool) : List Bool :=
  (List.range (max a.length b.length)).map fun j => a.getD j false || b.getD j false

/-- And of two bit vectors, the longer cut to the shorter. -/
def vecAnd (a b : List Bool) : List Bool :=
  (List.range (min a.length b.length)).map fun j => a.getD j false && b.getD j false

/-- `a` and not `b`, as long as `a`. -/
def vecSub (a b : List Bool) : List Bool :=
  (List.range a.length).map fun j => a.getD j false && !b.getD j false

section Refines

variable {bA o : BitArray}

theorem toBits_eq_of {c : BitArray} {f : Nat → Bool} {n : Nat} (hn : c.Bits.toNat = n)
    (h : ∀ j < n, c.bit j = f j) : toBits c = (List.range n).map f := by
  apply List.ext_getElem (by simp [hn])
  intro j h₁ _
  rw [getElem_toBits, List.getElem_map, List.getElem_range]
  exact h j (by simpa [hn] using h₁)

theorem toBits_Or (ha : bA.Clean) (ho : o.Clean) (hle : o.Elems.length ≤ bA.Elems.length) :
    ∃ c, Or (some bA) (some o) = .ok (some c) ∧ c.Clean ∧
      toBits c = vecOr (toBits bA) (toBits o) := by
  obtain ⟨c, hc, hw, hbits, hbit⟩ := Or_spec ha.wf ho.wf
  -- a set bit of either lies in a word of the receiver
  have hor : ∀ j, c.bit j = (bA.bit j || o.bit j) := by
    intro j
    rw [hbit]
    by_cases hw : j / 64 < bA.Elems.length
    · simp [hw]
    · have hA := bit_of_length_le (Nat.le_of_not_lt hw)
      have hO := @bit_of_length_le o j (by omega)
      simp [hw, hA, hO]
  refine ⟨c, hc, ⟨hw, fun j hj => ?_⟩, ?_⟩
  · rw [hor, ha.pad j (by omega), ho.pad j (by omega), Bool.or_false]
  · unfold vecOr
    rw [length_toBits, length_toBits]
    exact toBits_eq_of (by omega) fun j _ => by rw [hor, ha.getD_toBits, ho.getD_toBits]

theorem toBits_And (ha : bA.Clean) (ho : o.Clean) :
    ∃ c, And (some bA) (some o) = .ok (some c) ∧ c.Clean ∧
      toBits c = vecAnd (toBits bA) (toBits o) := by
  obtain ⟨c, hc, hw, hbits, hbit⟩ := @And_spec bA o ho.wf
  have hand : ∀ j, c.bit j = (bA.bit j && o.bit j) := by
    intro j
    rw [hbit]
    by_cases hj : j / 64 < c.Elems.length
    · simp [hj]
    · -- past the result's words the bit is past one of the sizes
      rw [hw.length_eq, hbits] at hj
      rcases le_total bA.Bits o.Bits with hab | hab
      · simp [ha.pad j (by omega)]
      · simp [ho.pad j (by omega)]
  refine ⟨c, hc, ⟨hw, fun j hj => ?_⟩, ?_⟩
  · rw [hand]
    rcases le_total bA.Bits o.Bits with hab | hab
    · rw [ha.pad j (by omega), Bool.false_and]
    · rw [ho.pad j (by omega), Bool.and_false]
  · unfold vecAnd
    rw [length_toBits, length_toBits]
    exact toBits_eq_of (by omega) fun j _ => by rw [hand, ha.getD_toBits, ho.getD_toBits]

theorem toBits_Sub (ha : bA.Wf) (ho : o.Clean) :
    ∃ c, Sub (some bA) (some o) = .ok (some c) ∧ (bA.Clean → c.Clean) ∧
      toBits c = vecSub (toBits bA) (toBits o) := by
  obtain ⟨c, hc, hw, hbits, hbit⟩ := Sub_spec (o := o) ha
  refine ⟨c, hc, fun hca => ⟨hw, fun j hj => ?_⟩, ?_⟩
  · rw [hbit, hca.pad j (by omega), Bool.false_and]
  · unfold vecSub
    rw [length_toBits]
    refine toBits_eq_of (by omega) fun j hj => ?_
    rw [hbit, ho.getD_toBits, List.getD_eq_getElem _ _ (by simpa using hj), getElem_toBits]

theorem toBits_not (ha : bA.Wf) : toBits bA.not = (toBits bA).map (!·) := by
  rw [show toBits bA = (List.range bA.Bits.toNat).map bA.bit from rfl, List.map_map]
  refine toBits_eq_of rfl fun j hj => ?_
  rw [not_bit, decide_eq_true (ha.word_lt (by omega))]
  rfl

theorem toBits_Update_take (ha : bA.Wf) (ho : o.Wf) :
    ∃ c, Update (some bA) (some o) = some c ∧ c.Wf ∧ c.Bits = bA.Bits ∧
      (toBits c).take (min bA.Bits.toNat o.Bits.toNat) =
        (toBits o).take (min bA.Bits.toNat o.Bits.toNat) := by
  refine ⟨_, rfl, ?_, rfl, ?_⟩
  · simpa [Wf] using ha
  · apply List.ext_getElem (by simp)
    intro j h₁ h₂
    simp only [List.length_take, length_toBits] at h₁ h₂
    rw [List.getElem_take, List.getElem_take, getElem_toBits, getElem_toBits]
    obtain ⟨c, hc, -, -, hbit⟩ := Update_bit bA o j
    cases hc
    rw [hbit, if_pos ⟨ho.word_lt (by omega), ha.word_lt (by omega)⟩]

theorem IsEmpty_iff (h : bA.Clean) : IsEmpty (some bA) = true ↔ ∀ b ∈ toBits bA, b = false := by
  have hpos : ∀ e : UInt64, ¬e > 0 ↔ e = 0 := fun e => by
    rw [gt_iff_lt, UInt64.lt_iff_toNat_lt, ← UInt64.toNat_inj]
    simp
  have hword : IsEmpty (some bA) = true ↔ ∀ j, bA.bit j = false := by
    simp only [IsEmpty, List.all_eq_true, Bool.not_eq_true', decide_eq_false_iff_not, hpos]
    constructor
    · intro hz j
      by_cases hw : j / 64 < bA.Elems.length
      · rw [bit, List.getD_eq_getElem _ _ hw, hz _ (List.getElem_mem hw)]
        simp
      · exact bit_of_length_le (Nat.le_of_not_lt hw)
    · intro hb e he
      obtain ⟨w, hw, rfl⟩ := List.getElem_of_mem he
      rw [word_eq_zero_iff]
      intro k
      -- bit `k` of word `w` is bit `64 * w + k` of the array, or past the word
      by_cases hk : k < 64
      · have := hb (64 * w + k)
        simp only [bit] at this
        rwa [show (64 * w + k) / 64 = w by omega, show (64 * w + k) % 64 = k by omega,
          List.getD_eq_getElem _ _ hw] at this
      · exact Nat.testBit_lt_two_pow (lt_of_lt_of_le bA.Elems[w].toNat_lt
          (Nat.pow_le_pow_right (by norm_num) (by omega)))
  rw [hword]
  constructor
  · intro hb b hmem
    obtain ⟨j, -, rfl⟩ := List.mem_map.mp hmem
    exact hb j
  · intro hb j
    by_cases hj : (j : Int) < bA.Bits
    · exact hb _ (List.mem_map.mpr ⟨j, List.mem_range.mpr (by omega), rfl⟩)
    · exact h.pad j (by omega)

end Refines

/-- `Or` reads of its argument only as many words as the receiver has: a one-bit array or-ed
with a 65-bit array whose last bit is set gives 65 bits with the last one clear. -/
theorem Or_drops_argument_words :
    ∃ a b c, NewBitArray 1 = some a ∧ SetIndex (NewBitArray 65) 64 true = .ok (true, some b) ∧
      Or (some a) (some b) = .ok (some c) ∧ toBits c ≠ vecOr (toBits a) (toBits b) :=
  ⟨_, _, _, rfl, rfl, rfl, by decide⟩

/-! ### Reachable arrays -/

theorem SetIndex_wf {a a' : Option BitArray} {i : Int} {v r : Bool}
    (ha : ∀ x, a = some x → x.Wf) (h : SetIndex a i v = .ok (r, a')) : ∀ x, a' = some x → x.Wf := by
  intro x hx
  cases a with
  | none =>
      cases h
      cases hx
  | some bA =>
      obtain ⟨⟨r', bA'⟩, hset, h⟩ := Result.bind_eq_ok.mp h
      cases h
      cases hx
      exact (setIndex_wf (ha bA rfl) hset).1

theorem lawful_json : BitString.Lawful NewBitArray setTrue toBits fun a => a.Wf ∧ 0 ≤ a.Bits where
  new_some n hn := by
    have hnew : NewBitArray n = some ⟨n, List.replicate (((n : Int) + 63).tdiv 64).toNat 0⟩ := by
      rw [NewBitArray, if_neg (by omega)]
    refine ⟨_, hnew, ⟨(newBitArray_wf hnew).1, by simp⟩, ?_⟩
    apply List.ext_getElem (by simp)
    intro j _ _
    rw [getElem_toBits, bit_newBitArray hnew, List.getElem_replicate]
  set_some a i ha hi := by
    rw [length_toBits] at hi
    obtain ⟨a', h, hw, hbits, hbit⟩ := setIndex_spec ha.1 (i := i) (by omega) true
    refine ⟨a', by simp [setTrue, SetIndex, h], ⟨hw, by omega⟩, ?_⟩
    apply List.ext_getElem (by simp [hbits])
    intro j _ _
    rw [getElem_toBits, hbit, List.getElem_set, getElem_toBits]
    by_cases hj : j = i
    · simp [hj]
    · simp [hj, Ne.symm hj]

theorem MarshalJSON_eq {bA : BitArray} (ha : bA.Wf) (hpos : 0 ≤ bA.Bits) :
    MarshalJSON (some bA) =
      .ok (BitString.quote :: (toBits bA).map BitString.bitChar ++ [BitString.quote]) := by
  have hsize : bA.Bits = ((toBits bA).length : Int) := by simp [hpos]
  rw [MarshalJSON, hsize]
  apply BitString.marshal_eq
  intro i hi
  rw [getElem_toBits, getIndex_eq_bit ha (by simp at hi; omega)]

theorem UnmarshalJSON_MarshalJSON {bA : BitArray} (ha : bA.Wf) (hpos : 0 < bA.Bits)
    (r : BitArray) :
    ∃ json a, MarshalJSON (some bA) = .ok json ∧ UnmarshalJSON r json = .ok (none, a) ∧
      a.Wf ∧ a.Bits = bA.Bits ∧ toBits a = toBits bA := by
  have hne : toBits bA ≠ [] := by
    rw [Ne, ← List.length_eq_zero_iff, length_toBits]
    omega
  obtain ⟨a, h, ⟨hw, ha0⟩, hbits⟩ := BitString.unmarshal_marshal lawful_json ⟨0, []⟩ r hne rfl
  have hlen := congrArg List.length hbits
  rw [length_toBits, length_toBits] at hlen
  exact ⟨_, a, MarshalJSON_eq ha hpos.le, h, hw, by omega, hbits⟩

/-- What `UnmarshalJSON` accepts without error, `null` apart, `MarshalJSON` writes back. -/
theorem MarshalJSON_of_UnmarshalJSON {r a : BitArray} {bz : Bytes} (hnull : bz ≠ BitString.null)
    (h : UnmarshalJSON r bz = .ok (none, a)) : MarshalJSON (some a) = .ok bz := by
  cases hm : BitString.matchBits bz with
  | none =>
      rw [UnmarshalJSON, BitString.unmarshal, if_neg hnull, hm] at h
      cases h
  | some cs =>
      obtain ⟨rfl, hcs⟩ := BitString.matchBits_eq_some hm
      by_cases hnil : cs = []
      · -- no bits: the array made is nil and the call panics
        subst hnil
        rw [UnmarshalJSON, List.cons_append, List.nil_append,
          BitString.unmarshal_quotes _ _ rfl] at h
        cases h
      · obtain ⟨a', h', ⟨hw, ha0⟩, hbits⟩ :=
          BitString.unmarshal_quoted lawful_json ⟨0, []⟩ r hnil hcs
        rw [UnmarshalJSON, h'] at h
        cases h
        rw [MarshalJSON_eq hw ha0, hbits, List.map_map]
        congr 3
        refine (List.map_congr_left fun c hc => ?_).trans (List.map_id cs)
        exact BitString.bitChar_charBit (hcs c hc)

theorem MarshalJSON_of_UnmarshalJSON_xo :
    ([34, 120, 95, 34] : Bytes) ≠ BitString.null ∧
      UnmarshalJSON ⟨0, []⟩ [34, 120, 95, 34] = .ok (none, ⟨2, [1]⟩) ∧
      MarshalJSON (some ⟨2, [1]⟩) = .ok [34, 120, 95, 34] := by
  have hnull : ([34, 120, 95, 34] : Bytes) ≠ BitString.null := by decide
  have h : UnmarshalJSON ⟨0, []⟩ [34, 120, 95, 34] = .ok (none, ⟨2, [1]⟩) := by rfl
  exact ⟨hnull, h, MarshalJSON_of_UnmarshalJSON hnull h⟩

/-- The arrays a program reaches: made by `NewBitArray`, or read from JSON into the zero value
or a reached array, and then changed by the operations. -/
inductive Built : Option BitArray → Prop
  | new (bits : Int) : Built (NewBitArray bits)
  | zero : Built (some ⟨0, []⟩)
  | unmarshal {r a : BitArray} {bz : Bytes} {e : Option BitString.FormatError} :
      Built (some r) → UnmarshalJSON r bz = .ok (e, a) → Built (some a)
  | setIndex {a a' : Option BitArray} {i : Int} {v r : Bool} :
      Built a → SetIndex a i v = .ok (r, a') → Built a'
  | copy {a : Option BitArray} : Built a → Built (Copy a)
  | or {a b c : Option BitArray} : Built a → Built b → Or a b = .ok c → Built c
  | and {a b c : Option BitArray} : Built a → Built b → And a b = .ok c → Built c
  | sub {a b c : Option BitArray} : Built a → Built b → Sub a b = .ok c → Built c
  | not {a : Option BitArray} : Built a → Built (Not a)
  | update {a b : Option BitArray} : Built a → Built b → Built (Update a b)

theorem Built.wf {a : Option BitArray} (h : Built a) : ∀ bA, a = some bA → bA.Wf := by
  induction h with
  | new bits =>
      intro bA hbA
      exact (newBitArray_wf hbA).1
  | zero =>
      intro bA hbA
      cases hbA
      rfl
  | unmarshal _ hu ih =>
      intro bA hbA
      cases hbA
      refine BitString.unmarshal_invariant NewBitArray setTrue (P := Wf)
        (show Wf ⟨0, []⟩ from rfl) (ih _ rfl)
        (fun _ _ hn => (newBitArray_wf hn).1) (fun a i a' ha hs => ?_) hu
      obtain ⟨⟨_, _⟩, hset, hs⟩ := Result.bind_eq_ok.mp hs
      cases hs
      exact SetIndex_wf ha hset
  | setIndex _ hs ih => exact SetIndex_wf ih hs
  | @copy a _ ih =>
      intro bA hbA
      cases a with
      | none => cases hbA
      | some x =>
          cases hbA
          rw [copy_eq]
          exact ih x rfl
  | @or a b c _ _ hor iha ihb =>
      intro bA hbA
      -- a nil side gives a copy of the other
      cases a <;> cases b
      · cases hor
        cases hbA
      · cases hor
        cases hbA
        rw [copy_eq]
        exact ihb _ rfl
      · cases hor
        cases hbA
        rw [copy_eq]
        exact iha _ rfl
      · obtain ⟨c', hc', hw, -⟩ := Or_spec (iha _ rfl) (ihb _ rfl)
        rw [hc'] at hor
        cases hor
        cases hbA
        exact hw
  | @and a b c _ _ hand _ ihb =>
      intro bA hbA
      cases a <;> cases b <;> try (cases hand; cases hbA)
      obtain ⟨c', hc', hw, -⟩ := And_spec (ihb _ rfl)
      rw [hc'] at hand
      cases hand
      cases hbA
      exact hw
  | @sub a b c _ _ hsub iha _ =>
      intro bA hbA
      cases a <;> cases b <;> try (cases hsub; cases hbA)
      obtain ⟨c', hc', hw, -⟩ := Sub_spec (iha _ rfl)
      rw [hc'] at hsub
      cases hsub
      cases hbA
      exact hw
  | @not a _ ih =>
      intro bA hbA
      cases a with
      | none => cases hbA
      | some x =>
          cases hbA
          exact not_wf (ih x rfl)
  | @update a b _ _ iha _ =>
      intro bA hbA
      cases a with
      | none => cases hbA
      | some x =>
          cases b with
          | none => exact iha _ hbA
          | some y =>
              cases hbA
              show (Go.copy x.Elems y.Elems).length = _
              rw [length_copy]
              exact iha x rfl

end Dgrid.Common.BitArray
