import Dgrid.Go.Bytes

/-! A bit array in JSON: its bits as `_` (0) and `x` (1) between double quotes, `null` for no
array. The reader checks the form, makes an array of as many bits and sets those marked `x`.
It is generic in the array, given how to make one and how to set a bit, and the laws below are
stated through a view of an array as its list of bits. -/

namespace BitString
open Go

/-- The byte `"`. -/
def quote : UInt8 := 34

/-- The byte written for a bit: `x` for 1, `_` for 0. -/
def bitChar (b : Bool) : UInt8 := if b then 120 else 95

/-- The bit a byte of the form stands for. -/
def charBit (c : UInt8) : Bool := c == 120

/-- The bytes of `null`. -/
def null : Bytes := [110, 117, 108, 108]

/-- Whether a byte is `_` or `x`. -/
def IsBitChar (c : UInt8) : Bool := c == 95 || c == 120

/-- The submatch of the pattern `\A"([_x]*)"\z`: the bytes between the quotes, when the whole
text is of that form. -/
def matchBits : Bytes → Option Bytes
  | [] => none
  | q :: rest =>
      if q = quote ∧ rest.getLast? = some quote ∧ rest.dropLast.all IsBitChar = true then
        some rest.dropLast
      else none

/-- The writer's loop over the indices, each bit read by `getIndex`. -/
def marshalBits (getIndex : Nat → Result Bool) : List Nat → Result Bytes
  | [] => .ok []
  | i :: is => do
      let b ← getIndex i
      let rest ← marshalBits getIndex is
      pure (bitChar b :: rest)

/-- `MarshalJSON` of an array of `size` bits. -/
def marshal (size : Int) (getIndex : Nat → Result Bool) : Result Bytes := do
  let bits ← marshalBits getIndex (List.range size.toNat)
  pure (quote :: bits ++ [quote])

/-- The error of a text not of the form: `BitArray in JSON should be a string of format
"\\A\"([_x]*)\"\\z" but got ` followed by the text. -/
structure FormatError where
  got : Bytes
deriving DecidableEq, Repr

section Reader

variable {A : Type} (new : Int → Option A) (setTrue : Option A → Nat → Result (Option A))

/-- The reader's loop: the `i`-th byte of the form sets bit `i` when it is `x`. -/
def setBits : Option A → Nat → Bytes → Result (Option A)
  | a, _, [] => .ok a
  | a, i, c :: rest => do
      let a ← (if c = bitChar true then setTrue a i else pure a)
      setBits a (i + 1) rest

/-- `UnmarshalJSON(bz)` into the receiver `bA`: the error returned, and the receiver after.
`null` writes `zero`. The array made is copied into the receiver through its pointer, which for
a nil array is a panic. -/
def unmarshal (zero bA : A) (bz : Bytes) : Result (Option FormatError × A) :=
  if bz = null then .ok (none, zero)
  else
    match matchBits bz with
    | none => .ok (some ⟨bz⟩, bA)
    | some bits => do
        let bA2 ← setBits setTrue (new bits.length) 0 bits
        match bA2 with
        | none => .panic "invalid memory address or nil pointer dereference"
        | some bA2 => .ok (none, bA2)

theorem unmarshal_quotes (h : new 0 = none) (zero bA : A) :
    unmarshal new setTrue zero bA [quote, quote] =
      .panic "invalid memory address or nil pointer dereference" := by
  simp [unmarshal, null, quote, matchBits, h, setBits]

section Invariant

variable {P : A → Prop}

theorem setBits_invariant
    (hset : ∀ a i a', (∀ x, a = some x → P x) → setTrue a i = .ok a' → ∀ x, a' = some x → P x) :
    ∀ (cs : Bytes) (a a' : Option A) (i : Nat), (∀ x, a = some x → P x) →
      setBits setTrue a i cs = .ok a' → ∀ x, a' = some x → P x
  | [], _, _, _, ha, h => by
      cases h
      exact ha
  | c :: cs, a, a', i, ha, h => by
      obtain ⟨a₁, h₁, h⟩ := Result.bind_eq_ok.mp h
      have ha₁ : ∀ x, a₁ = some x → P x := by
        by_cases hc : c = bitChar true
        · rw [if_pos hc] at h₁
          exact hset a i a₁ ha h₁
        · rw [if_neg hc] at h₁
          cases h₁
          exact ha
      exact setBits_invariant hset cs a₁ a' (i + 1) ha₁ h

theorem unmarshal_invariant {zero bA : A} {bz : Bytes} {e : Option FormatError} {a : A}
    (hzero : P zero) (hbA : P bA) (hnew : ∀ n a, new n = some a → P a)
    (hset : ∀ a i a', (∀ x, a = some x → P x) → setTrue a i = .ok a' → ∀ x, a' = some x → P x)
    (h : unmarshal new setTrue zero bA bz = .ok (e, a)) : P a := by
  unfold unmarshal at h
  split_ifs at h
  · cases h
    exact hzero
  · split at h
    · cases h
      exact hbA
    · obtain ⟨a₂, h₂, h⟩ := Result.bind_eq_ok.mp h
      have hP := setBits_invariant setTrue hset _ _ a₂ 0 (fun x hx => hnew _ x hx) h₂
      cases a₂ with
      | none => cases h
      | some x =>
          cases h
          exact hP _ rfl

end Invariant

end Reader

/-! ### The form -/

@[simp] theorem charBit_bitChar (b : Bool) : charBit (bitChar b) = b := by
  cases b <;> rfl

theorem bitChar_charBit {c : UInt8} (hc : IsBitChar c = true) : bitChar (charBit c) = c := by
  simp only [IsBitChar, Bool.or_eq_true, beq_iff_eq] at hc
  rcases hc with rfl | rfl <;> rfl

@[simp] theorem isBitChar_bitChar (b : Bool) : IsBitChar (bitChar b) = true := by
  cases b <;> rfl

theorem matchBits_quoted {cs : Bytes} (hcs : ∀ c ∈ cs, IsBitChar c = true) :
    matchBits (quote :: cs ++ [quote]) = some cs := by
  simpa [matchBits, List.all_eq_true] using hcs

theorem matchBits_eq_some {bz cs : Bytes} (h : matchBits bz = some cs) :
    bz = quote :: cs ++ [quote] ∧ ∀ c ∈ cs, IsBitChar c = true := by
  cases bz with
  | nil => cases h
  | cons q rest =>
      simp only [matchBits] at h
      split_ifs at h with hform
      cases h
      obtain ⟨rfl, hlast, hall⟩ := hform
      refine ⟨?_, by simpa [List.all_eq_true] using hall⟩
      rw [List.cons_append, List.dropLast_append_getLast? _ hlast]

theorem quoted_ne_null (cs : Bytes) : quote :: cs ++ [quote] ≠ null := by
  simp [null, quote]

/-! ### The writer -/

theorem marshalBits_eq {getIndex : Nat → Result Bool} {f : Nat → Bool} :
    ∀ is : List Nat, (∀ i ∈ is, getIndex i = .ok (f i)) →
      marshalBits getIndex is = .ok (is.map (bitChar ∘ f))
  | [], _ => rfl
  | i :: is, h => by
      have hi := h i List.mem_cons_self
      have hrest := marshalBits_eq is fun j hj => h j (List.mem_cons_of_mem i hj)
      rw [marshalBits, hi, Result.ok_bind, hrest, Result.ok_bind, Result.pure_eq]
      rfl

theorem marshal_eq {getIndex : Nat → Result Bool} {bs : List Bool}
    (h : ∀ i (hi : i < bs.length), getIndex i = .ok bs[i]) :
    marshal bs.length getIndex = .ok (quote :: bs.map bitChar ++ [quote]) := by
  have hread : ∀ i ∈ List.range bs.length, getIndex i = .ok (bs.getD i false) := by
    intro i hi
    have hi' := List.mem_range.mp hi
    rw [h i hi', List.getD_eq_getElem _ _ hi']
  rw [marshal, Int.toNat_natCast, marshalBits_eq _ hread, Result.ok_bind, Result.pure_eq]
  congr 3
  apply List.ext_getElem (by simp)
  intro i h₁ h₂
  have hi : i < bs.length := by simpa using h₂
  simp [List.getElem?_eq_getElem hi]

/-! ### The reader -/

section Laws

variable {A : Type} {new : Int → Option A} {setTrue : Option A → Nat → Result (Option A)}
  {toBits : A → List Bool} {Inv : A → Prop}

/-- The laws the reader needs of an array, seen through `toBits` and kept in shape by `Inv`: a
size `n ≥ 1` makes `n` zero bits, and setting a bit in range sets it and no other. -/
structure Lawful (new : Int → Option A) (setTrue : Option A → Nat → Result (Option A))
    (toBits : A → List Bool) (Inv : A → Prop) : Prop where
  new_some : ∀ n : Nat, 0 < n → ∃ a, new n = some a ∧ Inv a ∧ toBits a = List.replicate n false
  set_some : ∀ a i, Inv a → i < (toBits a).length →
    ∃ a', setTrue (some a) i = .ok (some a') ∧ Inv a' ∧ toBits a' = (toBits a).set i true

theorem setBits_spec (hl : Lawful new setTrue toBits Inv) :
    ∀ (cs : Bytes) (pre : List Bool) (a : A), Inv a →
      toBits a = pre ++ List.replicate cs.length false →
      ∃ a', setBits setTrue (some a) pre.length cs = .ok (some a') ∧ Inv a' ∧
        toBits a' = pre ++ cs.map charBit
  | [], pre, a, ha, hbits => ⟨a, rfl, ha, by simpa using hbits⟩
  | c :: cs, pre, a, ha, hbits => by
      -- one more byte: an `x` sets bit `pre.length`, and the prefix grows by its bit
      have hlen : pre.length < (toBits a).length := by simp [hbits]
      obtain ⟨a₁, hstep, ha₁, hbits₁⟩ : ∃ a₁, (if c = bitChar true then setTrue (some a) pre.length
          else pure (some a)) = .ok (some a₁) ∧ Inv a₁ ∧
          toBits a₁ = (pre ++ [charBit c]) ++ List.replicate cs.length false := by
        by_cases hc : c = bitChar true
        · obtain ⟨a₁, h₁, ha₁, hb₁⟩ := hl.set_some a pre.length ha hlen
          refine ⟨a₁, by rw [if_pos hc, h₁], ha₁, ?_⟩
          rw [hb₁, hbits, List.length_cons, List.replicate_succ, List.set_append_right _ _ (le_refl _),
            Nat.sub_self, List.set_cons_zero, hc, charBit_bitChar]
          simp
        · refine ⟨a, by rw [if_neg hc]; rfl, ha, ?_⟩
          have hx : charBit c = false := by
            simpa [charBit, bitChar] using hc
          rw [hbits, hx, List.length_cons, List.replicate_succ]
          simp
      obtain ⟨a', hrest, ha', hbits'⟩ := setBits_spec hl cs (pre ++ [charBit c]) a₁ ha₁ hbits₁
      refine ⟨a', ?_, ha', by rw [hbits']; simp⟩
      rw [setBits, hstep, Result.ok_bind]
      simpa using hrest

theorem unmarshal_quoted (hl : Lawful new setTrue toBits Inv) (zero bA : A) {cs : Bytes}
    (hne : cs ≠ []) (hcs : ∀ c ∈ cs, IsBitChar c = true) :
    ∃ a, unmarshal new setTrue zero bA (quote :: cs ++ [quote]) = .ok (none, a) ∧ Inv a ∧
      toBits a = cs.map charBit := by
  obtain ⟨a₀, hnew, ha₀, hbits₀⟩ := hl.new_some cs.length (List.length_pos_iff.mpr hne)
  obtain ⟨a, hset, ha, hbits⟩ := setBits_spec hl cs [] a₀ ha₀ (by simpa using hbits₀)
  refine ⟨a, ?_, ha, by simpa using hbits⟩
  rw [unmarshal, if_neg (quoted_ne_null cs), matchBits_quoted hcs]
  simp only [hnew]
  rw [show (0 : Nat) = ([] : List Bool).length from rfl, hset, Result.ok_bind]

theorem unmarshal_marshal (hl : Lawful new setTrue toBits Inv) (zero bA : A) {bs : List Bool}
    (hne : bs ≠ []) {json : Bytes} (hjson : json = quote :: bs.map bitChar ++ [quote]) :
    ∃ a, unmarshal new setTrue zero bA json = .ok (none, a) ∧ Inv a ∧ toBits a = bs := by
  subst hjson
  have hne' : bs.map bitChar ≠ [] := by simpa using hne
  obtain ⟨a, h, ha, hbits⟩ := unmarshal_quoted hl zero bA hne'
    (fun c hc => by obtain ⟨b, -, rfl⟩ := List.mem_map.mp hc; exact isBitChar_bitChar b)
  refine ⟨a, h, ha, ?_⟩
  rw [hbits, List.map_map]
  simp [Function.comp_def]

end Laws

end BitString
