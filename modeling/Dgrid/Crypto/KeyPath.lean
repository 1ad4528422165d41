import Dgrid.Go.Encoding

/-! `pkg/crypto/merkle/proof_key_path.go`: a key path is written with `/` before each key, the
key URL-encoded or in upper-case hex behind `x:`, and read back by splitting at `/`. Neither
encoding writes a `/`, so the parts come back one per key; but a URL-encoded key that begins with
`x:` is written as it is, and read back as hex. -/

namespace Dgrid.Merkle
open Go

/-- `keyEncoding`. -/
inductive keyEncoding where
  | KeyEncodingURL
  | KeyEncodingHex
  /-- the number of known encodings, used by the tests -/
  | KeyEncodingMax
deriving DecidableEq, Repr

/-- `Key`. -/
structure Key where
  name : Bytes
  enc : keyEncoding
deriving DecidableEq, Repr

/-- `KeyPath`. -/
abbrev KeyPath := List Key

def KeyPath.AppendKey (pth : KeyPath) (key : Bytes) (enc : keyEncoding) : KeyPath :=
  pth ++ [⟨key, enc⟩]

/-- What `pth.String()` writes for one key. -/
def Key.part (key : Key) : Result Bytes :=
  match key.enc with
  | .KeyEncodingURL => .ok (47 :: PathEscape key.name)
  | .KeyEncodingHex => .ok (47 :: 120 :: 58 :: sprintfUpperHex key.name)
  | .KeyEncodingMax => .panic "unexpected key encoding type"

/-- `pth.String()`: the part of each key in turn. -/
def KeyPath.String : KeyPath → Result Bytes
  | [] => .ok []
  | key :: rest => do
      let part ← key.part
      let res ← KeyPath.String rest
      pure (part ++ res)

/-- The errors of `KeyPathToKeys`. -/
inductive KeyPathError where
  /-- `"key path string must start with a forward slash '/'"` -/
  | noSlash
  /-- `"decoding hex-encoded part #%d: /%s"`, wrapping the error of `hex.DecodeString` -/
  | hexPart (i : Nat) (part : Bytes) (err : HexError)
  /-- `"decoding url-encoded part #%d: /%s"`, wrapping the error of `url.PathUnescape` -/
  | urlPart (i : Nat) (part : Bytes) (err : EscapeError)
deriving DecidableEq, Repr

/-- The body of the loop of `KeyPathToKeys` on the `i`-th part: hex behind `x:`, else
URL-encoded. -/
def decodePart (i : Nat) (part : Bytes) : Except KeyPathError Bytes :=
  if [120, 58].isPrefixOf part then (DecodeString (part.drop 2)).mapError (.hexPart i part)
  else (PathUnescape part).mapError (.urlPart i part)

/-- The loop of `KeyPathToKeys`, from the `i`-th part on. -/
def decodeParts (i : Nat) : List Bytes → Except KeyPathError (List Bytes)
  | [] => .ok []
  | part :: parts => do
      let key ← decodePart i part
      let keys ← decodeParts (i + 1) parts
      pure (key :: keys)

def KeyPathToKeys (path : Bytes) : Except KeyPathError (List Bytes) :=
  if path = [] ∨ path.head? ≠ some 47 then .error .noSlash
  else decodeParts 0 ((path.drop 1).splitOn 47)

/-! ### The round trip -/

theorem Key.part_decodes {key : Key} (hmax : key.enc ≠ .KeyEncodingMax)
    (hx : key.enc = .KeyEncodingURL → ¬ [120, 58] <+: key.name) :
    ∃ e, key.part = .ok (47 :: e) ∧ 47 ∉ e ∧ ∀ i, decodePart i e = .ok key.name := by
  obtain ⟨name, enc⟩ := key
  cases enc with
  | KeyEncodingURL =>
      -- the escape does not begin with `x:`, so it is unescaped
      have hpre : [120, 58].isPrefixOf (PathEscape name) = false := by
        rw [Bool.eq_false_iff, ne_eq, List.isPrefixOf_iff_prefix]
        exact fun h => hx rfl (x_colon_prefix_of_PathEscape h)
      refine ⟨_, rfl, slash_not_mem_PathEscape name, fun i => ?_⟩
      rw [decodePart, hpre, if_neg Bool.false_ne_true, PathUnescape_PathEscape]
      rfl
  | KeyEncodingHex =>
      refine ⟨_, rfl, ?_, fun i => ?_⟩
      · simp only [List.mem_cons, not_or]
        exact ⟨by decide, by decide, slash_not_mem_sprintfUpperHex name⟩
      · rw [decodePart, if_pos (by simp)]
        show (DecodeString (sprintfUpperHex name)).mapError _ = _
        rw [DecodeString_sprintfUpperHex]
        rfl
  | KeyEncodingMax => exact absurd rfl hmax

theorem KeyPath.String_parts {pth : KeyPath} (hne : pth ≠ [])
    (hmax : ∀ k ∈ pth, k.enc ≠ .KeyEncodingMax)
    (hx : ∀ k ∈ pth, k.enc = .KeyEncodingURL → ¬ [120, 58] <+: k.name) :
    ∃ parts : List Bytes, pth.String = .ok (47 :: [47].intercalate parts) ∧ parts ≠ [] ∧
      (∀ e ∈ parts, 47 ∉ e) ∧ ∀ i, decodeParts i parts = .ok (pth.map Key.name) := by
  induction pth with
  | nil => exact absurd rfl hne
  | cons key rest ih =>
      obtain ⟨e, hpart, hslash, hdec⟩ := key.part_decodes (hmax key List.mem_cons_self)
        (hx key List.mem_cons_self)
      rcases rest with _ | ⟨key', rest⟩
      · refine ⟨[e], ?_, List.cons_ne_nil _ _, by simpa using hslash, fun i => ?_⟩
        · rw [KeyPath.String, hpart, Result.ok_bind, KeyPath.String, Result.ok_bind]
          simp
        · rw [decodeParts, hdec, decodeParts]
          rfl
      · obtain ⟨parts, hstr, hne', hslash', hdec'⟩ := ih (List.cons_ne_nil _ _)
          (fun k hk => hmax k (List.mem_cons_of_mem _ hk))
          (fun k hk => hx k (List.mem_cons_of_mem _ hk))
        refine ⟨e :: parts, ?_, List.cons_ne_nil _ _, ?_, fun i => ?_⟩
        · -- the key's part, then `/` and the rest joined
          obtain ⟨p, ps, rfl⟩ := List.exists_cons_of_ne_nil hne'
          rw [KeyPath.String, hpart, Result.ok_bind, hstr, Result.ok_bind]
          simp [List.intercalate_cons_cons]
        · intro e' he'
          rcases List.mem_cons.mp he' with rfl | he'
          · exact hslash
          · exact hslash' e' he'
        · rw [decodeParts, hdec]
          simp only [bind, Except.bind, hdec']
          rfl

/-- `KeyPathToKeys` reads a non-empty path of keys of the two encodings back as its keys, when no
URL-encoded key begins with `x:`. -/
theorem KeyPathToKeys_String {pth : KeyPath} (hne : pth ≠ [])
    (hmax : ∀ k ∈ pth, k.enc ≠ .KeyEncodingMax)
    (hx : ∀ k ∈ pth, k.enc = .KeyEncodingURL → ¬ [120, 58] <+: k.name) :
    ∃ s, pth.String = .ok s ∧ KeyPathToKeys s = .ok (pth.map Key.name) := by
  obtain ⟨parts, hstr, hne', hslash, hdec⟩ := KeyPath.String_parts hne hmax hx
  refine ⟨_, hstr, ?_⟩
  -- splitting at `/` gives the parts back, since no part holds a `/`
  rw [KeyPathToKeys, if_neg (by simp), List.drop_one, List.tail_cons,
    List.splitOn_intercalate 47 hslash hne']
  exact hdec 0

theorem KeyPathToKeys_String_two :
    ([⟨[1, 2], .KeyEncodingHex⟩, ⟨[97], .KeyEncodingURL⟩] : KeyPath) ≠ [] ∧
      (∀ k ∈ ([⟨[1, 2], .KeyEncodingHex⟩, ⟨[97], .KeyEncodingURL⟩] : KeyPath), k.enc ≠ .KeyEncodingMax) ∧
      (∀ k ∈ ([⟨[1, 2], .KeyEncodingHex⟩, ⟨[97], .KeyEncodingURL⟩] : KeyPath),
        k.enc = .KeyEncodingURL → ¬ [120, 58] <+: k.name) ∧
      ∃ s, KeyPath.String [⟨[1, 2], .KeyEncodingHex⟩, ⟨[97], .KeyEncodingURL⟩] = .ok s ∧
        KeyPathToKeys s = .ok [[1, 2], [97]] := by
  have hmax : ∀ k ∈ ([⟨[1, 2], .KeyEncodingHex⟩, ⟨[97], .KeyEncodingURL⟩] : KeyPath),
      k.enc ≠ .KeyEncodingMax := by decide
  have hx : ∀ k ∈ ([⟨[1, 2], .KeyEncodingHex⟩, ⟨[97], .KeyEncodingURL⟩] : KeyPath),
      k.enc = .KeyEncodingURL → ¬ [120, 58] <+: k.name := by decide
  exact ⟨by simp, hmax, hx, KeyPathToKeys_String (by simp) hmax hx⟩

/-- A URL-encoded key `x:ab`: `PathEscape` leaves it as it is, and `KeyPathToKeys` reads the
path back as the hex key `[0xAB]`. -/
theorem KeyPathToKeys_reads_url_key_as_hex :
    KeyPath.String [⟨[120, 58, 97, 98], .KeyEncodingURL⟩] = .ok [47, 120, 58, 97, 98] ∧
      KeyPathToKeys [47, 120, 58, 97, 98] = .ok [[171]] :=
  ⟨by rfl, by rfl⟩

end Dgrid.Merkle
