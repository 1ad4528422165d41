import Dgrid.Lite.DBProviderKeys

/-! What `LatestFullCommit` reads, on any store. The reverse iterator holds the stored keys of
the range in descending order, and the loop stops at the first that reads as a signed-header
key: so it reads the greatest such key of the range, and reports `ErrCommitNotFound` when the
range holds none. -/

namespace Dgrid.Lite

open Go Dgrid.Db GoMap

section Sorted
variable {α : Type} {lt : α → α → Prop} {p : α → Bool}

theorem find?_reverse_of_pairwise {l : List α} (hl : l.Pairwise lt) {k : α}
    (h : l.reverse.find? p = some k) :
    k ∈ l ∧ p k ∧ ∀ k' ∈ l, p k' → k' = k ∨ lt k' k := by
  obtain ⟨hk, as, bs, hrev, has⟩ := List.find?_eq_some_iff_append.mp h
  have hl' : l = bs.reverse ++ k :: as.reverse := by
    rw [← List.reverse_reverse l, hrev]
    simp
  rw [hl'] at hl ⊢
  refine ⟨by simp, hk, fun k' hk' hp => ?_⟩
  rw [List.pairwise_append] at hl
  rcases List.mem_append.mp hk' with hb | hka
  · exact .inr (hl.2.2 k' hb k List.mem_cons_self)
  · rcases List.mem_cons.mp hka with rfl | ha
    · exact .inl rfl
    · have := has k' (List.mem_reverse.mp ha)
      simp [hp] at this

end Sorted

namespace DBProvider

variable (cdc : ProviderCodec) (dbp : DBProvider)

theorem latestLoop_eq (fuel : Nat) (itr : memDBIterator)
    (hfuel : itr.keys.length - itr.cur < fuel) :
    dbp.latestLoop cdc fuel itr =
      ((itr.keys.drop itr.cur).find? fun k => (parseSignedHeaderKey k).isSome).elim
        (.ok (.error .commitNotFound)) fun k => dbp.readSignedHeader cdc (itr.db.Get k) := by
  induction fuel generalizing itr with
  | zero => omega
  | succ fuel ih =>
    by_cases hv : itr.cur < itr.keys.length
    · rw [List.drop_eq_getElem_cons hv, List.find?_cons]
      simp only [latestLoop, memDBIterator.Valid_of_lt hv, if_true, memDBIterator.Key_of_lt hv,
        Result.ok_bind]
      cases hp : parseSignedHeaderKey itr.keys[itr.cur] with
      | none =>
        -- a key of another form is passed over
        have hrest := ih { itr with cur := itr.cur + 1 } (by simp only; omega)
        simp only [memDBIterator.Next_of_lt hv, Result.ok_bind, hrest, Option.isSome_none]
      | some r =>
        simp [memDBIterator.Value_of_lt hv]
    · have hvalid : itr.Valid = false := by simp [memDBIterator.Valid, hv]
      simp [latestLoop, hvalid, List.drop_eq_nil_of_le (Nat.le_of_not_lt hv)]

/-- `LatestFullCommit` on any store: when no stored key of its range reads as a signed-header
key it reports `ErrCommitNotFound`; otherwise it reads the value of the greatest key of the
range that does. -/
theorem LatestFullCommit_greatest (chainID : String) (minHeight maxHeight : Int) :
    let start := signedHeaderKey chainID (if minHeight ≤ 0 then 1 else minHeight)
    let end' := signedHeaderKey chainID (if maxHeight = 0 then maxInt64 else maxHeight) ++ [0x00]
    let found := fun k => (dbp.db.Get k).isSome = true ∧ IsKeyInDomain k start (some end') = true ∧
      (parseSignedHeaderKey k).isSome = true
    ((∀ k, ¬ found k) ∧
        dbp.LatestFullCommit cdc chainID minHeight maxHeight = .ok (.error .commitNotFound)) ∨
      ∃ k, found k ∧ (∀ k', found k' → k' = k ∨ bytesCompare k' k = -1) ∧
        dbp.LatestFullCommit cdc chainID minHeight maxHeight =
          dbp.readSignedHeader cdc (dbp.db.Get k) := by
  intro start end' found
  have hlen := MemDB.length_getSortedKeys_le dbp.db start (some end')
  have hloop := dbp.latestLoop_eq cdc (len dbp.db.db + 1) (dbp.db.ReverseIterator start (some end'))
    (by simp only [MemDB.ReverseIterator, newMemDBIterator, MemDB.getSortedKeys_true,
      List.length_reverse]; omega)
  have hlatest : dbp.LatestFullCommit cdc chainID minHeight maxHeight =
      dbp.latestLoop cdc (len dbp.db.db + 1) (dbp.db.ReverseIterator start (some end')) := rfl
  rw [hlatest, hloop]
  simp only [MemDB.ReverseIterator, newMemDBIterator, List.drop_zero, MemDB.getSortedKeys_true]
  cases hf : (dbp.db.getSortedKeys start (some end') false).reverse.find?
      fun k => (parseSignedHeaderKey k).isSome with
  | none =>
    refine .inl ⟨fun k hfound => ?_, rfl⟩
    have hk := List.mem_reverse.mpr (MemDB.mem_getSortedKeys.mpr ⟨hfound.1, hfound.2.1⟩)
    have := List.find?_eq_none.mp hf k hk
    simp [hfound.2.2] at this
  | some k =>
    obtain ⟨hmem, hp, hmax⟩ := find?_reverse_of_pairwise (MemDB.getSortedKeys_sorted _ _ _) hf
    obtain ⟨hget, hdom⟩ := MemDB.mem_getSortedKeys.mp hmem
    refine .inr ⟨k, ⟨hget, hdom, hp⟩, fun k' hfound => ?_, rfl⟩
    exact hmax k' (MemDB.mem_getSortedKeys.mpr ⟨hfound.1, hfound.2.1⟩) hfound.2.2

end DBProvider

end Dgrid.Lite
