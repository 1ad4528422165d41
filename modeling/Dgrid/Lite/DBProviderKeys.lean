import Dgrid.Lite.DBProvider

/-! The keys of the provider read back. A key `"%s/%010d/<part>"` of a chain ID that is not
empty and has no `/`, and of a height that is not negative, matches `keyPattern` with the chain
ID, the digits and the part; `parseSignedHeaderKey` gives back the chain and the height. A key of
any other chain ID or height is not read as a signed-header key at all: the first `/` of the key
and the number of `/` in it decide. -/

namespace Dgrid.Lite

open Go

section Split
variable {α : Type}

theorem append_cons_inj_of_not_mem {x : α} {c c' s s' : List α} (hc : x ∉ c) (hc' : x ∉ c')
    (h : c ++ x :: s = c' ++ x :: s') : c = c' ∧ s = s' := by
  induction c generalizing c' with
  | nil =>
    cases c' with
    | nil => exact ⟨rfl, by simpa using h⟩
    | cons y c' =>
      obtain ⟨rfl, -⟩ := List.cons.inj h
      exact absurd List.mem_cons_self hc'
  | cons y c ih =>
    cases c' with
    | nil =>
      obtain ⟨rfl, -⟩ := List.cons.inj h
      exact absurd List.mem_cons_self hc
    | cons z c' =>
      simp only [List.cons_append] at h
      obtain ⟨rfl, h'⟩ := List.cons.inj h
      obtain ⟨rfl, rfl⟩ := ih (fun hm => hc (List.mem_cons_of_mem _ hm))
        (fun hm => hc' (List.mem_cons_of_mem _ hm)) h'
      exact ⟨rfl, rfl⟩

theorem takeWhile_append_drop (p : α → Bool) (l : List α) :
    l.takeWhile p ++ l.drop (l.takeWhile p).length = l := by
  conv_rhs => rw [← List.take_append_drop (l.takeWhile p).length l]
  rw [← List.prefix_iff_eq_take.mp (List.takeWhile_prefix p)]

end Split

theorem stringBytes_slash : stringBytes "/" = [0x2F] := rfl

theorem heightKey_eq (chainID : String) (height : Int) (part : String) :
    heightKey chainID height part =
      stringBytes chainID ++ 0x2F :: (formatInt 10 height ++ 0x2F :: stringBytes part) := by
  simp [heightKey, stringBytes_slash]

/-- The keys of one chain sort by height and then by part, for heights of at most ten digits:
the ten places of the height come before the part. -/
theorem bytesCompare_heightKey (chainID : String) {a b : Int} (ha : 0 ≤ a ∧ a < 10 ^ 10)
    (hb : 0 ≤ b ∧ b < 10 ^ 10) (p q : String) :
    bytesCompare (heightKey chainID a p) (heightKey chainID b q) =
      if a < b then -1 else if b < a then 1 else bytesCompare (stringBytes p) (stringBytes q) := by
  have hkey : ∀ x : Int, 0 ≤ x ∧ x < 10 ^ 10 → ∀ part, heightKey chainID x part =
      (stringBytes chainID ++ [0x2F]) ++ (zeroPad 10 x.toNat ++ 0x2F :: stringBytes part) := by
    intro x hx part
    rw [heightKey_eq, formatInt_of_lt (by norm_num) hx.1 hx.2]
    simp
  have hnat : ∀ x : Int, 0 ≤ x ∧ x < 10 ^ 10 → x.toNat < 10 ^ 10 := by
    intro x hx
    have := hx.2
    norm_num at this ⊢
    omega
  have hlt : ∀ x y : Int, 0 ≤ x ∧ x < 10 ^ 10 → 0 ≤ y ∧ y < 10 ^ 10 → x < y →
      bytesCompare (zeroPad 10 x.toNat) (zeroPad 10 y.toNat) = -1 := by
    intro x y hx hy hxy
    apply bytesCompare_zeroPad
    rw [Nat.mod_eq_of_lt (hnat x hx), Nat.mod_eq_of_lt (hnat y hy)]
    omega
  rw [hkey a ha, hkey b hb, bytesCompare_append_left]
  split_ifs with hab hba
  · exact bytesCompare_append_of_lt (hlt a b ha hb hab) (by simp) _ _
  · rw [bytesCompare_swap, bytesCompare_append_of_lt (hlt b a hb ha hba) (by simp) _ _]
    rfl
  · obtain rfl : a = b := by omega
    rw [bytesCompare_append_left, bytesCompare_cons_eq (UInt8.lt_irrefl _) (UInt8.lt_irrefl _)]

theorem bytesCompare_heightKey_sample :
    ((0 : Int) ≤ 9 ∧ (9 : Int) < 10 ^ 10) ∧ ((0 : Int) ≤ 10 ∧ (10 : Int) < 10 ^ 10) ∧
      bytesCompare (heightKey "chain" 9 "vs") (heightKey "chain" 10 "sh") =
        if (9 : Int) < 10 then -1 else if (10 : Int) < 9 then 1
        else bytesCompare (stringBytes "vs") (stringBytes "sh") :=
  ⟨by norm_num, by norm_num,
    bytesCompare_heightKey "chain" (by norm_num) (by norm_num) "vs" "sh"⟩

theorem keyPatternFindSubmatch_spec {key c d p : Bytes}
    (h : keyPatternFindSubmatch key = some (c, d, p)) :
    key = c ++ 0x2F :: (d ++ 0x2F :: p) ∧ c ≠ [] ∧ 0x2F ∉ c ∧ d.all isDigit = true := by
  dsimp only [keyPatternFindSubmatch] at h
  split_ifs at h with hm
  obtain ⟨hc, hslash, hpart, -⟩ := hm
  cases h
  set c := key.takeWhile (· != 0x2F) with hcdef
  set rest := (key.drop c.length).drop 1
  have hkey : key = c ++ 0x2F :: rest := by
    obtain ⟨t, ht⟩ := List.head?_eq_some_iff.mp hslash
    have hrest : rest = t := by simp only [rest, ht, List.drop_one, List.tail_cons]
    rw [hrest, ← ht, hcdef, takeWhile_append_drop _ _]
  have hrest : rest = rest.takeWhile isDigit ++
      0x2F :: (rest.drop (rest.takeWhile isDigit).length).drop 1 := by
    obtain ⟨t, ht⟩ := List.head?_eq_some_iff.mp hpart
    rw [ht, List.drop_one, List.tail_cons, ← ht, takeWhile_append_drop _ _]
  refine ⟨hkey.trans (by rw [← hrest]), hc, fun hmem => ?_, ?_⟩
  · have := List.mem_takeWhile_imp hmem
    simp at this
  · exact List.all_eq_true.mpr fun x hx => List.mem_takeWhile_imp hx

theorem keyPatternFindSubmatch_eq {c d p : Bytes} (hc : c ≠ []) (hcs : 0x2F ∉ c)
    (hd : d.all isDigit = true) (hp : 0x0A ∉ p) :
    keyPatternFindSubmatch (c ++ 0x2F :: (d ++ 0x2F :: p)) = some (c, d, p) := by
  have hchain : (c ++ 0x2F :: (d ++ 0x2F :: p)).takeWhile (· != 0x2F) = c := by
    rw [List.takeWhile_append_of_pos (fun a ha => by
        have : a ≠ 0x2F := fun h => hcs (h ▸ ha)
        simpa using this),
      List.takeWhile_cons_of_neg (by simp), List.append_nil]
  have hdigits : (d ++ 0x2F :: p).takeWhile isDigit = d := by
    rw [List.takeWhile_append_of_pos (fun a ha => List.all_eq_true.mp hd a ha),
      List.takeWhile_cons_of_neg (by decide), List.append_nil]
  dsimp only [keyPatternFindSubmatch]
  rw [hchain, List.drop_left]
  simp only [List.drop_one, List.tail_cons, hdigits, List.drop_left, List.head?_cons]
  simp [hc, hp]

theorem parseKey_spec {key c p : Bytes} {height : Int}
    (h : parseKey key = some (c, height, p)) :
    ∃ d, keyPatternFindSubmatch key = some (c, d, p) ∧ Atoi d = some height := by
  unfold parseKey at h
  rcases hm : keyPatternFindSubmatch key with _ | ⟨c', d, p'⟩
  · simp [hm] at h
  · rcases ha : Atoi d with _ | h'
    · simp [hm, ha] at h
    · simp only [hm, ha, Option.some.injEq, Prod.mk.injEq] at h
      obtain ⟨rfl, rfl, rfl⟩ := h
      exact ⟨d, rfl, ha⟩

theorem parseKey_of_parseSignedHeaderKey {key c : Bytes} {height : Int}
    (h : parseSignedHeaderKey key = some (c, height)) :
    parseKey key = some (c, height, stringBytes "sh") := by
  unfold parseSignedHeaderKey at h
  rcases hk : parseKey key with _ | ⟨c', h', p⟩
  · simp [hk] at h
  · simp only [hk] at h
    split_ifs at h with hp
    cases h
    rw [hp]

theorem slash_not_mem_formatInt (wid : Nat) (x : Int) : (0x2F : UInt8) ∉ formatInt wid x :=
  not_mem_formatInt (by decide) (by decide) wid x

theorem parseKey_heightKey {chainID : String} {height : Int} {part : String}
    (hc : stringBytes chainID ≠ []) (hcs : 0x2F ∉ stringBytes chainID) (h0 : 0 ≤ height)
    (h64 : height ≤ maxInt64) (hp : 0x0A ∉ stringBytes part) :
    parseKey (heightKey chainID height part) =
      some (stringBytes chainID, height, stringBytes part) := by
  rw [heightKey_eq]
  simp only [parseKey, keyPatternFindSubmatch_eq hc hcs (all_isDigit_formatInt h0) hp,
    Atoi_formatInt h0 h64]

/-- A key read back with its own part, one without `/`, is of a chain ID that is not empty and
has no `/` and of a height that is not negative: the key has as many `/` as the reading finds
two, and the part after the first `/` begins with the digits. -/
theorem valid_of_parseKey_heightKey {chainID : String} {height : Int} {part : String}
    {c : Bytes} {h' : Int} (hps : 0x2F ∉ stringBytes part)
    (h : parseKey (heightKey chainID height part) = some (c, h', stringBytes part)) :
    stringBytes chainID ≠ [] ∧ 0x2F ∉ stringBytes chainID ∧ 0 ≤ height := by
  obtain ⟨d, hm, -⟩ := parseKey_spec h
  obtain ⟨hkey, hc, hcs, hd⟩ := keyPatternFindSubmatch_spec hm
  rw [heightKey_eq] at hkey
  have hcount := congrArg (List.count (0x2F : UInt8)) hkey
  have hD : (formatInt 10 height).count 0x2F = 0 :=
    List.count_eq_zero.mpr (slash_not_mem_formatInt 10 height)
  have hd0 : d.count 0x2F = 0 := List.count_eq_zero.mpr fun hm' => by
    have := List.all_eq_true.mp hd _ hm'
    simp [isDigit] at this
  simp only [List.count_append, List.count_cons, List.count_eq_zero.mpr hcs, hD, hd0,
    List.count_eq_zero.mpr hps, beq_self_eq_true, if_true] at hcount
  have hcb : 0x2F ∉ stringBytes chainID := fun hm' => by
    have := List.count_pos_iff.mpr hm'
    omega
  obtain ⟨rfl, hrest⟩ := append_cons_inj_of_not_mem hcb hcs hkey
  obtain rfl := List.append_cancel_right hrest
  refine ⟨hc, hcb, ?_⟩
  by_contra hneg
  rw [formatInt_of_neg (Int.not_le.mp hneg)] at hd
  simp [isDigit] at hd

/-- Two keys of one part, without `/` or newline, and of `int64` heights are equal only for one
chain and height, once one of them is of a chain ID that is not empty and has no `/` and of a
height that is not negative. -/
theorem heightKey_inj {chainID chainID' : String} {height height' : Int} {part : String}
    (hc : stringBytes chainID' ≠ []) (hcs : 0x2F ∉ stringBytes chainID') (h0 : 0 ≤ height')
    (h64 : height ≤ maxInt64) (h64' : height' ≤ maxInt64) (hps : 0x2F ∉ stringBytes part)
    (hp : 0x0A ∉ stringBytes part)
    (h : heightKey chainID height part = heightKey chainID' height' part) :
    chainID = chainID' ∧ height = height' := by
  have h' := parseKey_heightKey hc hcs h0 h64' hp
  rw [← h] at h'
  obtain ⟨hc₁, hcs₁, h0₁⟩ := valid_of_parseKey_heightKey hps h'
  rw [parseKey_heightKey hc₁ hcs₁ h0₁ h64 hp] at h'
  simp only [Option.some.injEq, Prod.mk.injEq, stringBytes_inj] at h'
  exact ⟨h'.1, h'.2.1⟩

/-- A signed-header key reads back as its chain ID and height exactly when the chain ID is not
empty and has no `/` and the height is not negative; any other is not read as a signed-header
key. -/
theorem parseSignedHeaderKey_signedHeaderKey (chainID : String) {height : Int}
    (h64 : height ≤ maxInt64) :
    parseSignedHeaderKey (signedHeaderKey chainID height) =
      if stringBytes chainID ≠ [] ∧ 0x2F ∉ stringBytes chainID ∧ 0 ≤ height then
        some (stringBytes chainID, height)
      else none := by
  rw [signedHeaderKey]
  split_ifs with hvalid
  · obtain ⟨hc, hcs, h0⟩ := hvalid
    simp [parseSignedHeaderKey,
      parseKey_heightKey hc hcs h0 h64 (show (0x0A : UInt8) ∉ stringBytes "sh" by decide)]
  · cases hparse : parseSignedHeaderKey (heightKey chainID height "sh") with
    | none => rfl
    | some r =>
      obtain ⟨c, h'⟩ := r
      exact absurd (valid_of_parseKey_heightKey (by decide)
        (parseKey_of_parseSignedHeaderKey hparse)) hvalid

theorem parseSignedHeaderKey_signedHeaderKey_sample :
    (7 : Int) ≤ maxInt64 ∧
      parseSignedHeaderKey (signedHeaderKey "chain" 7) = some (stringBytes "chain", 7) := by
  refine ⟨by decide, ?_⟩
  rw [parseSignedHeaderKey_signedHeaderKey "chain" (by decide),
    if_pos ⟨by decide, by decide, by decide⟩]

end Dgrid.Lite
