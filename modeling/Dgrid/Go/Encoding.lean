import Dgrid.Go.Bytes

/-! The text encodings of the Go standard library that key paths use, as the library specifies
them: `url.PathEscape` and `url.PathUnescape`, `hex.DecodeString`, and `fmt.Sprintf("%X", b)` on a
byte slice. A Go string is its bytes. -/

namespace Go

/-- `"0123456789ABCDEF"[d]`, for `d < 16`. -/
def upperHexDigit (d : UInt8) : UInt8 := if d < 10 then 48 + d else 55 + d

/-- `fromHexChar`: the value of a hex digit of either case. `unhex` and `ishex` of `net/url`
make the same three range tests. -/
def fromHexChar (c : UInt8) : Option UInt8 :=
  if 48 ≤ c ∧ c ≤ 57 then some (c - 48)
  else if 97 ≤ c ∧ c ≤ 102 then some (c - 97 + 10)
  else if 65 ≤ c ∧ c ≤ 70 then some (c - 65 + 10)
  else none

def ishex (c : UInt8) : Bool := (fromHexChar c).isSome

def unhex (c : UInt8) : UInt8 := (fromHexChar c).getD 0

/-- `fmt.Sprintf("%X", b)`: two upper-case digits per byte, high half first. -/
def sprintfUpperHex (b : Bytes) : Bytes :=
  b.flatMap fun (c : UInt8) => [upperHexDigit (c >>> 4), upperHexDigit (c &&& 15)]

/-- The errors of `hex.DecodeString`. -/
inductive HexError where
  /-- `InvalidByteError` -/
  | InvalidByteError (b : UInt8)
  /-- `ErrLength`, `"encoding/hex: odd length hex string"` -/
  | ErrLength
deriving DecidableEq, Repr

/-- `hex.DecodeString(s)`: the digits two by two, then a last odd digit is an error of length, or
of the digit if it is none. -/
def DecodeString : Bytes → Except HexError Bytes
  | [] => .ok []
  | [a] => if (fromHexChar a).isSome then .error .ErrLength else .error (.InvalidByteError a)
  | a :: b :: rest =>
      match fromHexChar a, fromHexChar b with
      | none, _ => .error (.InvalidByteError a)
      | some _, none => .error (.InvalidByteError b)
      | some x, some y => ((x <<< 4 ||| y) :: ·) <$> DecodeString rest

/-- `shouldEscape(c, encodePathSegment)`: a byte stays as it is when it is a letter, a digit,
one of `- _ . ~`, or one of the reserved `$ & + : = @` that a path segment may hold; the reserved
`/ ; , ?` and every other byte are escaped. -/
def shouldEscapePathSegment (c : UInt8) : Bool :=
  if (97 ≤ c ∧ c ≤ 122) ∨ (65 ≤ c ∧ c ≤ 90) ∨ (48 ≤ c ∧ c ≤ 57) then false
  else if c = 45 ∨ c = 95 ∨ c = 46 ∨ c = 126 then false
  else if c = 36 ∨ c = 38 ∨ c = 43 ∨ c = 44 ∨ c = 47 ∨ c = 58 ∨ c = 59 ∨ c = 61 ∨ c = 63 ∨
      c = 64 then
    decide (c = 47 ∨ c = 59 ∨ c = 44 ∨ c = 63)
  else true

/-- `url.PathEscape(s)`: each byte to escape becomes `%` and its two upper-case digits. -/
def PathEscape (s : Bytes) : Bytes :=
  s.flatMap fun c =>
    if shouldEscapePathSegment c then [37, upperHexDigit (c >>> 4), upperHexDigit (c &&& 15)]
    else [c]

/-- `url.EscapeError`: the malformed escape, its `%` and at most two bytes after. -/
structure EscapeError where
  s : Bytes
deriving DecidableEq, Repr

/-- `url.PathUnescape(s)`. Go checks every `%` from the front and then decodes; one pass from the
front meets the same first malformed escape and decodes the same bytes. `+` stays `+` in a
path. -/
def PathUnescape : Bytes → Except EscapeError Bytes
  | [] => .ok []
  | c :: rest =>
      if c = 37 then
        match rest with
        | a :: b :: rest' =>
            if ishex a && ishex b then ((unhex a <<< 4 ||| unhex b) :: ·) <$> PathUnescape rest'
            else .error ⟨[37, a, b]⟩
        | _ => .error ⟨c :: rest⟩
      else (c :: ·) <$> PathUnescape rest

/-! ### Round trips -/

theorem fromHexChar_upperHexDigit_high (c : UInt8) :
    fromHexChar (upperHexDigit (c >>> 4)) = some (c >>> 4) := by
  revert c
  decide +kernel

theorem fromHexChar_upperHexDigit_low (c : UInt8) :
    fromHexChar (upperHexDigit (c &&& 15)) = some (c &&& 15) := by
  revert c
  decide +kernel

theorem halves_eq (c : UInt8) : c >>> 4 <<< 4 ||| c &&& 15 = c := by
  revert c
  decide +kernel

theorem DecodeString_sprintfUpperHex (b : Bytes) : DecodeString (sprintfUpperHex b) = .ok b := by
  induction b with
  | nil => rfl
  | cons c b ih =>
      -- the two digits of `c` read back as its halves, and the rest as the rest
      simp only [sprintfUpperHex, List.flatMap_cons, List.cons_append, List.nil_append] at ih ⊢
      rw [DecodeString, fromHexChar_upperHexDigit_high, fromHexChar_upperHexDigit_low]
      dsimp only
      rw [ih, halves_eq]
      rfl

theorem PathUnescape_escaped (c : UInt8) (rest : Bytes) :
    PathUnescape (37 :: upperHexDigit (c >>> 4) :: upperHexDigit (c &&& 15) :: rest) =
      (c :: ·) <$> PathUnescape rest := by
  rw [PathUnescape, if_pos rfl]
  rw [ishex, ishex, unhex, unhex, fromHexChar_upperHexDigit_high, fromHexChar_upperHexDigit_low]
  simp [halves_eq]

theorem PathUnescape_kept {c : UInt8} (hc : shouldEscapePathSegment c = false) (rest : Bytes) :
    PathUnescape (c :: rest) = (c :: ·) <$> PathUnescape rest := by
  have h37 : c ≠ 37 := by
    rintro rfl
    exact absurd hc (by decide)
  rw [PathUnescape.eq_def]
  dsimp only
  rw [if_neg h37]

theorem PathUnescape_PathEscape (s : Bytes) : PathUnescape (PathEscape s) = .ok s := by
  induction s with
  | nil => rfl
  | cons c s ih =>
      simp only [PathEscape, List.flatMap_cons] at ih ⊢
      cases hc : shouldEscapePathSegment c
      · rw [if_neg Bool.false_ne_true, List.singleton_append, PathUnescape_kept hc, ih]
        rfl
      · rw [if_pos rfl, List.cons_append, List.cons_append, List.cons_append, List.nil_append,
          PathUnescape_escaped, ih]
        rfl

/-! ### What the encodings never write -/

theorem ne_slash_of_fromHexChar {d x : UInt8} (h : fromHexChar d = some x) : d ≠ 47 := by
  rintro rfl
  have hnone : fromHexChar 47 = none := by decide
  rw [hnone] at h
  cases h

theorem slash_not_mem_sprintfUpperHex (b : Bytes) : 47 ∉ sprintfUpperHex b := by
  simp only [sprintfUpperHex, List.mem_flatMap, List.mem_cons, List.not_mem_nil, or_false,
    not_exists, not_and]
  intro c _ h
  rcases h with h | h
  · exact ne_slash_of_fromHexChar (fromHexChar_upperHexDigit_high c) h.symm
  · exact ne_slash_of_fromHexChar (fromHexChar_upperHexDigit_low c) h.symm

theorem slash_not_mem_PathEscape (s : Bytes) : 47 ∉ PathEscape s := by
  simp only [PathEscape, List.mem_flatMap, not_exists, not_and]
  intro c _
  cases hc : shouldEscapePathSegment c
  · rw [if_neg Bool.false_ne_true, List.mem_singleton]
    rintro rfl
    exact absurd hc (by decide)
  · rw [if_pos rfl]
    simp only [List.mem_cons, List.not_mem_nil, or_false, not_or]
    exact ⟨by decide, (ne_slash_of_fromHexChar (fromHexChar_upperHexDigit_high c)).symm,
      (ne_slash_of_fromHexChar (fromHexChar_upperHexDigit_low c)).symm⟩

theorem PathEscape_cons (c : UInt8) (s : Bytes) :
    PathEscape (c :: s) = (if shouldEscapePathSegment c then
      [37, upperHexDigit (c >>> 4), upperHexDigit (c &&& 15)] else [c]) ++ PathEscape s := by
  simp [PathEscape]

theorem x_colon_prefix_of_PathEscape {s : Bytes} (h : [120, 58] <+: PathEscape s) :
    [120, 58] <+: s := by
  rcases s with _ | ⟨a, s⟩
  · exact absurd h (by simp [PathEscape])
  rw [PathEscape_cons] at h
  cases ha : shouldEscapePathSegment a
  · rw [ha, if_neg Bool.false_ne_true, List.singleton_append, List.cons_prefix_cons] at h
    obtain ⟨rfl, h⟩ := h
    rcases s with _ | ⟨b, s⟩
    · exact absurd h (by simp [PathEscape])
    rw [PathEscape_cons] at h
    cases hb : shouldEscapePathSegment b
    · rw [hb, if_neg Bool.false_ne_true, List.singleton_append, List.cons_prefix_cons] at h
      obtain ⟨rfl, -⟩ := h
      exact ⟨s, rfl⟩
    · rw [hb, if_pos rfl, List.cons_append, List.cons_prefix_cons] at h
      exact absurd h.1 (by decide)
  · rw [ha, if_pos rfl, List.cons_append, List.cons_prefix_cons] at h
    exact absurd h.1 (by decide)

end Go
