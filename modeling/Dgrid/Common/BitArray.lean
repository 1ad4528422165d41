import Dgrid.Go.Basic
import Dgrid.Lib.BitString

/-! `pkg/common/bit_array.go`: a bit array is a size `Bits` and a slice of `uint64` words, bit
`i` being bit `i % 64` of word `i / 64`. A nil `*BitArray` is `none`: its size is `0`, every
read gives `false` and every write is refused. -/

namespace Dgrid.Common
open Go

/-- A non-nil `cmn.BitArray`. -/
structure BitArray where
  Bits : Int
  Elems : List UInt64
deriving DecidableEq, Repr

/-- `NewBitArray(bits)`: `nil` for a size that is not positive. -/
def NewBitArray (bits : Int) : Option BitArray :=
  if bits ≤ 0 then none else some ⟨bits, List.replicate ((bits + 63).tdiv 64).toNat 0⟩

namespace BitArray

def Size : Option BitArray → Int
  | none => 0
  | some bA => bA.Bits

/-- `getIndex(i)`. An index past the size reads `false`; below it Go reads the word
`Elems[i/64]`, which panics for `i ≤ -64`, and shifts by `uint(i%64)`. -/
def getIndex (bA : BitArray) (i : Int) : Result Bool :=
  if i ≥ bA.Bits then .ok false
  else do
    let e ← index bA.Elems (i.tdiv 64)
    pure (decide (e &&& shl64 1 (uintOfInt (i.tmod 64)) > 0))

def GetIndex : Option BitArray → Int → Result Bool
  | none, _ => .ok false
  | some bA, i => bA.getIndex i

/-- `setIndex(i, v)`: whether the bit was in range, and the array after the write. -/
def setIndex (bA : BitArray) (i : Int) (v : Bool) : Result (Bool × BitArray) :=
  if i ≥ bA.Bits then .ok (false, bA)
  else do
    let mask := shl64 1 (uintOfInt (i.tmod 64))
    let Elems ← update bA.Elems (i.tdiv 64) (fun e => if v then e ||| mask else e &&& ~~~mask)
    pure (true, { bA with Elems })

def SetIndex : Option BitArray → Int → Bool → Result (Bool × Option BitArray)
  | none, _, _ => .ok (false, none)
  | some bA, i, v => do
      let (r, bA) ← bA.setIndex i v
      pure (r, some bA)

def copy (bA : BitArray) : BitArray :=
  { bA with Elems := Go.copy (List.replicate bA.Elems.length 0) bA.Elems }

def Copy : Option BitArray → Option BitArray
  | none => none
  | some bA => some bA.copy

/-- `copyBits(bits)`: an array of `bits` bits holding the words of `bA` that fit. -/
def copyBits (bA : BitArray) (bits : Int) : BitArray :=
  ⟨bits, Go.copy (List.replicate ((bits + 63).tdiv 64).toNat 0) bA.Elems⟩

/-- The loop `for i := 0; i < n; i++ { c.Elems[i] op= o.Elems[i] }` of `Or`, `and` and `Sub`. -/
def wordsLoop (op : UInt64 → UInt64 → UInt64) (n : Nat) (c o : List UInt64) :
    Result (List UInt64) :=
  (List.range n).foldlM (fun c (i : Nat) => do
    let e ← index o i
    update c i (op · e)) c

/-- `Or(o)`: as large as the larger, the words of both or-ed. -/
def Or : Option BitArray → Option BitArray → Result (Option BitArray)
  | none, none => .ok none
  | none, some o => .ok (some o.copy)
  | some bA, none => .ok (some bA.copy)
  | some bA, some o => do
      let c := bA.copyBits (max bA.Bits o.Bits)
      let Elems ← wordsLoop (· ||| ·) (min bA.Elems.length o.Elems.length) c.Elems o.Elems
      pure (some { c with Elems })

/-- `and(o)`: as large as the smaller, each of its words and-ed with the other's. -/
def and (bA o : BitArray) : Result BitArray := do
  let c := bA.copyBits (min bA.Bits o.Bits)
  let Elems ← wordsLoop (· &&& ·) c.Elems.length c.Elems o.Elems
  pure { c with Elems }

def And : Option BitArray → Option BitArray → Result (Option BitArray)
  | some bA, some o => do
      let c ← bA.and o
      pure (some c)
  | _, _ => .ok none

/-- `not()`: every word complemented. -/
def not (bA : BitArray) : BitArray :=
  let c := bA.copy
  { c with Elems := c.Elems.map (~~~·) }

def Not : Option BitArray → Option BitArray
  | none => none
  | some bA => some bA.not

/-- `Sub(o)`: the size of the receiver, each word and-not-ed with the other's where both have
one. -/
def Sub : Option BitArray → Option BitArray → Result (Option BitArray)
  | some bA, some o => do
      let c := bA.copyBits bA.Bits
      let Elems ← wordsLoop (fun a b => a &&& ~~~b) (min bA.Elems.length o.Elems.length) c.Elems
        o.Elems
      pure (some { c with Elems })
  | _, _ => .ok none

/-- `IsEmpty()`: no word is above zero. -/
def IsEmpty : Option BitArray → Bool
  | none => true
  | some bA => bA.Elems.all fun e => !decide (e > 0)

/-- `IsFull()`: every word but the last is all ones, and so are the low bits of the last one
that are in range. With no word the slice `Elems[:len-1]` panics. -/
def IsFull : Option BitArray → Result Bool
  | none => .ok true
  | some bA => do
      let init ← slice bA.Elems 0 ((bA.Elems.length : Int) - 1)
      if init.any (fun elem => ~~~elem != 0) then pure false
      else
        let lastElemBits := (bA.Bits + 63).tmod 64 + 1
        let lastElem ← index bA.Elems ((bA.Elems.length : Int) - 1)
        pure ((lastElem + 1) &&& (shl64 1 (uintOfInt lastElemBits) - 1) == 0)

/-- `Update(o)`: the receiver after the call, its first words those of `o`. -/
def Update : Option BitArray → Option BitArray → Option BitArray
  | some bA, some o => some { bA with Elems := Go.copy bA.Elems o.Elems }
  | bA, _ => bA

def MarshalJSON : Option BitArray → Result Bytes
  | none => .ok BitString.null
  | some bA => BitString.marshal bA.Bits fun i => bA.getIndex i

/-- `SetIndex(i, true)` on the array `UnmarshalJSON` makes. -/
def setTrue (bA : Option BitArray) (i : Nat) : Result (Option BitArray) := do
  let (_, bA) ← SetIndex bA i true
  pure bA

/-- `UnmarshalJSON(bz)` on the receiver `bA`: the error returned, and the receiver after. -/
def UnmarshalJSON (bA : BitArray) (bz : Bytes) :
    Result (Option BitString.FormatError × BitArray) :=
  BitString.unmarshal NewBitArray setTrue ⟨0, []⟩ bA bz

/-! ### The bits an array stands for -/

/-- Bit `j`: bit `j % 64` of word `j / 64`, a missing word reading as zero. -/
def bit (bA : BitArray) (j : Nat) : Bool := (bA.Elems.getD (j / 64) 0).toNat.testBit (j % 64)

/-- The shape `NewBitArray` gives: one word for every 64 bits, rounding up. -/
def Wf (bA : BitArray) : Prop := bA.Elems.length = ((bA.Bits + 63).tdiv 64).toNat

theorem newBitArray_wf {bits : Int} {bA : BitArray} (h : NewBitArray bits = some bA) :
    bA.Wf ∧ bA.Bits = bits := by
  unfold NewBitArray at h
  split_ifs at h
  cases h
  exact ⟨by simp [Wf], rfl⟩

@[simp] theorem bit_newBitArray {bits : Int} {bA : BitArray} (h : NewBitArray bits = some bA)
    (j : Nat) : bA.bit j = false := by
  unfold NewBitArray at h
  split_ifs at h
  cases h
  simp [bit, List.getD_eq_getElem?_getD]

section InRange

variable {bA : BitArray} {i : Nat}

theorem word_lt (hw : bA.Wf) (hi : (i : Int) < bA.Bits) : i / 64 < bA.Elems.length := by
  rw [hw]
  have h₁ : (0 : Int) ≤ bA.Bits + 63 := by omega
  rw [Int.tdiv_eq_ediv_of_nonneg h₁]
  omega

theorem tdiv_word (i : Nat) : (i : Int).tdiv 64 = ((i / 64 : Nat) : Int) := by
  rw [Int.tdiv_eq_ediv_of_nonneg (by omega)]
  omega

theorem shift_eq (i : Nat) : uintOfInt ((i : Int).tmod 64) = i % 64 := by
  have h : (i : Int).tmod 64 = ((i % 64 : Nat) : Int) := by
    rw [Int.tmod_eq_emod_of_nonneg (by omega)]
    omega
  rw [h, uintOfInt_of_lt (by omega)]

theorem getIndex_eq_bit (hw : bA.Wf) (hi : (i : Int) < bA.Bits) :
    bA.getIndex i = .ok (bA.bit i) := by
  have hlt := word_lt hw hi
  rw [getIndex, if_neg (by omega), tdiv_word, index_of_lt hlt, Result.ok_bind, shift_eq,
    Result.pure_eq, Result.ok.injEq, bit, List.getD_eq_getElem _ _ hlt]
  rw [Bool.eq_iff_iff, decide_eq_true_iff]
  exact and_shl64_pos_iff (Nat.mod_lt _ (by norm_num))

theorem setIndex_true (hw : bA.Wf) (hi : (i : Int) < bA.Bits) :
    ∃ bA', bA.setIndex i true = .ok (true, bA') ∧ bA'.Wf ∧ bA'.Bits = bA.Bits ∧
      ∀ j, bA'.bit j = (bA.bit j || decide (j = i)) := by
  have hlt := word_lt hw hi
  refine ⟨{ bA with Elems := bA.Elems.set (i / 64) (bA.Elems[i / 64] ||| shl64 1 (i % 64)) },
    ?_, ?_, rfl, fun j => ?_⟩
  · rw [setIndex, if_neg (by omega)]
    dsimp only
    rw [shift_eq, tdiv_word, update_of_lt hlt]
    rfl
  · simpa [Wf] using hw
  · -- only the word `i / 64` changes, and in it only bit `i % 64`
    simp only [bit]
    by_cases hj : j / 64 = i / 64
    · rw [hj, List.getD_eq_getElem _ _ (by simpa using hlt), List.getElem_set_self,
        testBit_or_shl64 (Nat.mod_lt _ (by norm_num)), List.getD_eq_getElem _ _ hlt]
      congr 1
      exact decide_eq_decide.mpr ⟨fun h => by omega, fun h => by rw [h]⟩
    · have hne : j ≠ i := fun h => hj (h ▸ rfl)
      simp [List.getD_eq_getElem?_getD, Ne.symm hj, hne]

end InRange

end BitArray

end Dgrid.Common
