import Dgrid.Crypto.CompactBitArray

/-! The compact bit array against its bits. An array of the shape `NewCompactBitArray` gives
(`Wf`) reads and writes its bits in range, counts them, and comes back from its binary and
JSON forms. The decoders do not take every input: `CompactUnmarshal` panics on an overflowing
varint, and the JSON reader of both bit arrays panics on the form with no bits. -/

namespace Dgrid.Bitarray.CompactBitArray
open Go

/-- Bit `j`: bit `7 - j % 8` of byte `j / 8`, a missing byte reading as zero. -/
def bit (bA : CompactBitArray) (j : Nat) : Bool :=
  (bA.Elems.getD (j / 8) 0).toNat.testBit (7 - j % 8)

/-- The shape `NewCompactBitArray` gives: at least one byte, and fewer than eight bits of the
last one in use when not all of them. -/
structure Wf (bA : CompactBitArray) : Prop where
  extra_lt : bA.ExtraBitsStored.toNat < 8
  elems_pos : 0 < bA.Elems.length

section Arith

theorem shiftRight_three (i : Nat) : (i : Int) >>> (3 : Nat) = ((i / 8 : Nat) : Int) := by
  rw [Int.shiftRight_eq_div_pow]
  omega

theorem mask_eq (i : Nat) : mask i = shl8 1 (7 - i % 8) := by
  have h : (7 - (i : Int).tmod 8) = ((7 - i % 8 : Nat) : Int) := by
    rw [Int.tmod_eq_emod_of_nonneg (by omega)]
    omega
  rw [mask, h, uint8OfInt]
  congr 1
  omega

theorem and_shl8_pos_iff {x : UInt8} {s : Nat} (hs : s < 8) :
    x &&& shl8 1 s > 0 ↔ x.toNat.testBit s = true := by
  rw [gt_iff_lt, UInt8.lt_iff_toNat_lt, UInt8.toNat_and, shl8_one_toNat hs, Nat.and_two_pow]
  cases x.toNat.testBit s <;> simp

theorem extra_eq_zero_iff (bA : CompactBitArray) :
    bA.ExtraBitsStored = 0 ↔ bA.ExtraBitsStored.toNat = 0 := by
  rw [← UInt8.toNat_inj]
  rfl

end Arith

section Wf

variable {bA : CompactBitArray}

theorem Wf.size_spec (h : bA.Wf) :
    8 * ((bA.Elems.length : Int) - 1) < Size (some bA) ∧ Size (some bA) ≤ 8 * bA.Elems.length ∧
      Size (some bA) % 8 = bA.ExtraBitsStored.toNat := by
  have := h.extra_lt
  have := h.elems_pos
  simp only [Size]
  by_cases hz : bA.ExtraBitsStored.toNat = 0
  · rw [if_pos ((extra_eq_zero_iff bA).mpr hz), hz]
    omega
  · rw [if_neg (fun h' => hz ((extra_eq_zero_iff bA).mp h'))]
    omega

theorem Wf.word_lt (h : bA.Wf) {i : Nat} (hi : (i : Int) < Size (some bA)) :
    i / 8 < bA.Elems.length := by
  have := h.size_spec
  omega

theorem getIndex_eq_bit (h : bA.Wf) {i : Nat} (hi : (i : Int) < Size (some bA)) :
    GetIndex (some bA) i = .ok (bA.bit i) := by
  have hlt := h.word_lt hi
  rw [GetIndex, if_neg (by omega), shiftRight_three, index_of_lt hlt, Result.ok_bind,
    Result.pure_eq, mask_eq, bit, List.getD_eq_getElem _ _ hlt]
  congr 1
  rw [Bool.eq_iff_iff, decide_eq_true_iff]
  exact and_shl8_pos_iff (by omega)

theorem getIndex_of_ge {i : Int} (hi : Size (some bA) ≤ i) : GetIndex (some bA) i = .ok false := by
  rw [GetIndex, if_pos hi]

/-- Whether bit `i` is set and in range: what `GetIndex(i)` reads. -/
def isSet (bA : CompactBitArray) (i : Nat) : Bool := decide ((i : Int) < Size (some bA)) && bA.bit i

theorem getIndex_eq_isSet (h : bA.Wf) (i : Nat) : GetIndex (some bA) i = .ok (bA.isSet i) := by
  by_cases hi : (i : Int) < Size (some bA)
  · rw [getIndex_eq_bit h hi, isSet, decide_eq_true hi, Bool.true_and]
  · rw [getIndex_of_ge (by omega), isSet, decide_eq_false hi, Bool.false_and]

theorem countLoop_eq {g : Int → Result Bool} {f : Nat → Bool} (hg : ∀ i : Nat, g i = .ok (f i)) :
    ∀ (l : List Nat) (c : Int), l.foldlM (fun n (i : Nat) => do
      let b ← g i
      pure (if b then n + 1 else n)) c = .ok (c + l.countP f)
  | [], c => by simp
  | i :: l, c => by
      rw [List.foldlM_cons, hg, Result.ok_bind, Result.pure_eq, Result.ok_bind, countLoop_eq hg l,
        List.countP_cons]
      split <;> simp_all
      omega

theorem numTrueBitsBefore_eq (h : bA.Wf) (n : Nat) :
    NumTrueBitsBefore (some bA) n = .ok ((List.range n).countP bA.isSet) := by
  rw [NumTrueBitsBefore, Int.toNat_natCast, countLoop_eq (getIndex_eq_isSet h), Int.zero_add]

end Wf

/-! ### Writing a bit -/

section Write

variable {bA : CompactBitArray}

@[simp] theorem testBit_byte_or (a b : UInt8) (k : Nat) :
    (a ||| b).toNat.testBit k = (a.toNat.testBit k || b.toNat.testBit k) := by
  rw [UInt8.toNat_or, Nat.testBit_or]

@[simp] theorem testBit_byte_and (a b : UInt8) (k : Nat) :
    (a &&& b).toNat.testBit k = (a.toNat.testBit k && b.toNat.testBit k) := by
  rw [UInt8.toNat_and, Nat.testBit_and]

@[simp] theorem testBit_byte_not (a : UInt8) (k : Nat) :
    (~~~a).toNat.testBit k = (decide (k < 8) && !a.toNat.testBit k) := by
  rw [← UInt8.toNat_toBitVec, ← UInt8.toNat_toBitVec, BitVec.testBit_toNat,
    BitVec.testBit_toNat, UInt8.toBitVec_not, BitVec.getLsbD_not]

theorem getD_set_byte (l : Bytes) (n w : Nat) (v : UInt8) :
    (l.set n v).getD w 0 = if w = n ∧ n < l.length then v else l.getD w 0 := by
  simp only [List.getD_eq_getElem?_getD, List.getElem?_set]
  split_ifs <;> simp_all

theorem setIndex_spec (h : bA.Wf) {i : Nat} (hi : (i : Int) < Size (some bA)) (v : Bool) :
    ∃ bA', SetIndex (some bA) i v = .ok (true, some bA') ∧ bA'.Wf ∧
      bA'.ExtraBitsStored = bA.ExtraBitsStored ∧ bA'.Elems.length = bA.Elems.length ∧
      ∀ j, bA'.bit j = if j = i then v else bA.bit j := by
  have hlt := h.word_lt hi
  have hk : 7 - i % 8 < 8 := by omega
  have hmask : ∀ k, (shl8 1 (7 - i % 8)).toNat.testBit k = decide (7 - i % 8 = k) := fun k => by
    rw [shl8_one_toNat hk, Nat.testBit_two_pow]
  refine ⟨{ bA with Elems := bA.Elems.set (i / 8) (if v then bA.Elems[i / 8] ||| shl8 1 (7 - i % 8)
    else bA.Elems[i / 8] &&& ~~~shl8 1 (7 - i % 8)) }, ?_, ⟨h.extra_lt, by simpa using h.elems_pos⟩,
    rfl, by simp, fun j => ?_⟩
  · rw [SetIndex, if_neg (by omega), shiftRight_three, update_of_lt hlt, mask_eq]
    rfl
  · simp only [bit]
    rw [getD_set_byte]
    by_cases hj : j / 8 = i / 8
    · -- the byte of bit `i`: only its bit `7 - i % 8` changes
      have hji : j = i ↔ 7 - i % 8 = 7 - j % 8 := by omega
      have hjk : 7 - j % 8 < 8 := by omega
      rw [if_pos ⟨hj, hlt⟩, hj, List.getD_eq_getElem _ _ hlt]
      cases v <;> by_cases hji' : j = i <;> simp [hmask, hji', hji.not.mp, hjk, -UInt8.toNat_not]
    · have hne : j ≠ i := fun h => hj (h ▸ rfl)
      rw [if_neg (fun h => hj h.1), if_neg hne]

theorem size_congr {bA' : CompactBitArray} (he : bA'.ExtraBitsStored = bA.ExtraBitsStored)
    (hl : bA'.Elems.length = bA.Elems.length) : Size (some bA') = Size (some bA) := by
  simp only [Size, he, hl]

end Write

/-! ### Made fresh -/

theorem newCompactBitArray_spec {n : Nat} (hn : 0 < n) :
    ∃ bA, NewCompactBitArray n = some bA ∧ bA.Wf ∧ Size (some bA) = n ∧
      bA.Elems.length = (n + 7) / 8 ∧ ∀ j, bA.bit j = false := by
  have hmod : (uint8OfInt ((n : Int).tmod 8)).toUInt8.toNat = n % 8 := by
    rw [Int.tmod_eq_emod_of_nonneg (by omega), uint8OfInt]
    simp [Nat.toUInt8_eq, UInt8.toNat_ofNat']
    omega
  have hlen : ((n + 7 : Int).tdiv 8).toNat = (n + 7) / 8 := by
    rw [Int.tdiv_eq_ediv_of_nonneg (by omega)]
    omega
  refine ⟨_, by rw [NewCompactBitArray, if_neg (by omega)], ⟨?_, ?_⟩, ?_, ?_, fun j => ?_⟩
  · rw [hmod]
    omega
  · simp only [List.length_replicate, hlen]
    omega
  · simp only [Size, List.length_replicate, hlen, ← UInt8.toNat_inj, hmod, UInt8.toNat_zero]
    split_ifs <;> omega
  · simp [hlen]
  · simp [bit, List.getD_eq_getElem?_getD]

/-! ### The binary form -/

section Binary

variable {bA : CompactBitArray}

theorem compactMarshal_ne_null (h : bA.Wf) :
    PutUvarint (Size (some bA)).toNat ++ bA.Elems ≠ BitString.null := by
  obtain ⟨h₁, h₂, -⟩ := h.size_spec
  obtain ⟨rest, hput, hrest⟩ := PutUvarint_head (Size (some bA)).toNat
  rw [hput]
  intro hnull
  simp only [BitString.null, List.cons_append, List.cons.injEq] at hnull
  obtain ⟨hfirst, htail⟩ := hnull
  by_cases hs : (Size (some bA)).toNat < 128
  · -- one byte: it would be `110`, and the three bytes after it too few for such a size
    rw [if_pos hs] at hfirst
    rw [hrest hs, List.nil_append] at htail
    have hbyte : (Size (some bA)).toNat % 256 = 110 := by
      simpa [Nat.toUInt8_eq, UInt8.toNat_ofNat'] using congrArg UInt8.toNat hfirst
    have hl := congrArg List.length htail
    simp only [List.length_cons, List.length_nil] at hl
    omega
  · rw [if_neg hs] at hfirst
    have hbyte : ((Size (some bA)).toNat % 128 + 128) % 256 = 110 := by
      simpa [Nat.toUInt8_eq, UInt8.toNat_ofNat'] using congrArg UInt8.toNat hfirst
    omega

/-- `CompactUnmarshal` reads back what `CompactMarshal` writes of a well-formed array with fewer
bytes than an `int` size can count. -/
theorem CompactUnmarshal_CompactMarshal (h : bA.Wf) (hfit : bA.Elems.length < 2 ^ 60) :
    CompactUnmarshal (CompactMarshal (some bA)) = .ok (.ok (some bA)) := by
  obtain ⟨h₁, h₂, h₃⟩ := h.size_spec
  have hext := h.extra_lt
  have hpos := h.elems_pos
  set s := Size (some bA) with hs
  have hs0 : 0 < s := by omega
  have hput := PutUvarint_ne_nil s.toNat
  have hmarshal : CompactMarshal (some bA) = PutUvarint s.toNat ++ bA.Elems := by
    rw [CompactMarshal, if_neg (by omega)]
  have hlen2 : ¬(PutUvarint s.toNat ++ bA.Elems).length < 2 := by
    have := List.length_pos_iff.mpr hput
    simp only [List.length_append]
    omega
  have h64 : s.toNat < 2 ^ 64 := by
    have : (2 : Nat) ^ 64 = 18446744073709551616 := by norm_num
    omega
  have hread := Uvarint_PutUvarint_append h64 bA.Elems
  have hslice : slice (PutUvarint s.toNat ++ bA.Elems) ((PutUvarint s.toNat).length : Int)
      (PutUvarint s.toNat ++ bA.Elems).length = .ok bA.Elems := by
    rw [slice, if_pos (by simp), Int.toNat_natCast, Int.toNat_natCast,
      List.take_of_length_le (le_refl _), List.drop_left]
  -- the size fits in an `int` with room for `+7`, so neither `+7` nor the conversion wraps
  have hwrap : wrap64 (((s.toNat : Int) + 7) % 2 ^ 64) = s + 7 := by
    have h2 : (2 : Int) ^ 64 = 18446744073709551616 := by norm_num
    rw [h2, Int.emod_eq_of_lt (by omega) (by omega),
      wrap64_of_inInt64 (by unfold InInt64 minInt64 maxInt64; omega)]
    omega
  have hcount : (s + 7).tdiv 8 = bA.Elems.length := by
    rw [Int.tdiv_eq_ediv_of_nonneg (by omega)]
    omega
  have hextra : ((s.toNat % 8 : Nat).toUInt8) = bA.ExtraBitsStored := by
    apply UInt8.toNat_inj.mp
    simp [Nat.toUInt8_eq, UInt8.toNat_ofNat']
    omega
  rw [hmarshal, CompactUnmarshal, if_neg hlen2, if_neg (compactMarshal_ne_null h)]
  simp only [hread]
  rw [hslice, Result.ok_bind, hwrap, hcount, hextra, if_neg (by simp)]

theorem CompactUnmarshal_CompactMarshal_one :
    (⟨3, [0x05]⟩ : CompactBitArray).Wf ∧ (⟨3, [0x05]⟩ : CompactBitArray).Elems.length < 2 ^ 60 ∧
      CompactUnmarshal (CompactMarshal (some ⟨3, [0x05]⟩)) = .ok (.ok (some ⟨3, [0x05]⟩)) :=
  ⟨⟨by decide, by decide⟩, by decide, CompactUnmarshal_CompactMarshal ⟨by decide, by decide⟩ (by decide)⟩

/-- An overflowing varint gives a negative length, and the slice from it panics. -/
theorem CompactUnmarshal_overflow_panics :
    CompactUnmarshal [0x80, 0x80, 0x80, 0x80, 0x80, 0x80, 0x80, 0x80, 0x80, 0x02] =
      .panic "slice bounds out of range" := by
  rw [CompactUnmarshal, if_neg (by decide), if_neg (by decide)]
  rfl

end Binary

/-! ### The JSON form -/

section JSON

variable {bA : CompactBitArray}

/-- The bits an array stands for: its first `Size()`. -/
def toBits (bA : CompactBitArray) : List Bool := (List.range (Size (some bA)).toNat).map bA.bit

@[simp] theorem length_toBits (bA : CompactBitArray) :
    (toBits bA).length = (Size (some bA)).toNat := by
  simp [toBits]

theorem getElem_toBits (bA : CompactBitArray) {j : Nat} (h : j < (toBits bA).length) :
    (toBits bA)[j] = bA.bit j := by
  simp [toBits]

theorem lawful_json : BitString.Lawful NewCompactBitArray setTrue toBits Wf where
  new_some n hn := by
    obtain ⟨bA, hnew, hw, hsize, -, hbit⟩ := newCompactBitArray_spec hn
    refine ⟨bA, hnew, hw, ?_⟩
    apply List.ext_getElem (by simp [hsize])
    intro j _ _
    rw [getElem_toBits, hbit, List.getElem_replicate]
  set_some a i ha hi := by
    rw [length_toBits] at hi
    obtain ⟨a', h, hw, hext, hlen, hbit⟩ := setIndex_spec ha (i := i) (by omega) true
    have hsize := size_congr hext hlen
    refine ⟨a', by simp [setTrue, h], hw, ?_⟩
    apply List.ext_getElem (by simp [hsize])
    intro j _ _
    rw [getElem_toBits, hbit, List.getElem_set, getElem_toBits]
    by_cases hj : j = i
    · simp [hj]
    · simp [hj, Ne.symm hj]

theorem MarshalJSON_eq (h : bA.Wf) :
    MarshalJSON (some bA) =
      .ok (BitString.quote :: (toBits bA).map BitString.bitChar ++ [BitString.quote]) := by
  have hsize : Size (some bA) = ((toBits bA).length : Int) := by
    have := h.size_spec
    have := h.elems_pos
    simp only [length_toBits]
    omega
  rw [MarshalJSON, hsize]
  apply BitString.marshal_eq
  intro i hi
  rw [getElem_toBits, getIndex_eq_bit h (by simp at hi; omega)]

theorem UnmarshalJSON_MarshalJSON (h : bA.Wf) (r : CompactBitArray) :
    ∃ json a, MarshalJSON (some bA) = .ok json ∧ UnmarshalJSON r json = .ok (none, a) ∧
      a.Wf ∧ Size (some a) = Size (some bA) ∧ toBits a = toBits bA := by
  have hpos : 0 < Size (some bA) := by
    have := h.size_spec
    have := h.elems_pos
    omega
  have hne : toBits bA ≠ [] := by
    rw [Ne, ← List.length_eq_zero_iff, length_toBits]
    omega
  obtain ⟨a, hu, hw, hbits⟩ := BitString.unmarshal_marshal lawful_json ⟨0, []⟩ r hne rfl
  have hlen := congrArg List.length hbits
  rw [length_toBits, length_toBits] at hlen
  have ha0 : 0 < Size (some a) := by
    have := hw.size_spec
    have := hw.elems_pos
    omega
  exact ⟨_, a, MarshalJSON_eq h, hu, hw, by omega, hbits⟩

end JSON

/-- Both bit arrays read the JSON form with no bits, `""`, as an array of size `0`, which is
nil, and the copy into the receiver panics. -/
theorem UnmarshalJSON_empty_string_panics (r : Common.BitArray) (c : CompactBitArray) :
    Common.BitArray.UnmarshalJSON r [34, 34] =
        .panic "invalid memory address or nil pointer dereference" ∧
      UnmarshalJSON c [34, 34] = .panic "invalid memory address or nil pointer dereference" :=
  ⟨BitString.unmarshal_quotes _ _ rfl _ _, BitString.unmarshal_quotes _ _ rfl _ _⟩

end Dgrid.Bitarray.CompactBitArray
