import Dgrid.Lib.Transition
import Dgrid.Types.PartSet

/-! What a part set guarantees. `AddPart` keeps one slot per part and `count` equal to the number
of held slots, so a complete set holds every part and its reader delivers the parts' bytes in
slot order, whatever buffer sizes the caller reads with. Which bytes sit in a slot is only as good
as the check on the part: `AddPart` checks the proof but not that the proof is for the slot, so a
genuine part placed in another slot is accepted. -/

namespace Dgrid.Types
open Go Merkle

/-- The bytes of the parts held in `parts`, in slot order. -/
def heldBytes (parts : List (Option Part)) : Bytes := (parts.filterMap id).flatMap Part.Bytes

@[simp]
theorem heldBytes_nil : heldBytes [] = [] := rfl

@[simp]
theorem heldBytes_cons_some (p : Part) (parts : List (Option Part)) :
    heldBytes (some p :: parts) = p.Bytes ++ heldBytes parts := by
  simp [heldBytes]

namespace PartSetReader

/-- What the reader has still to deliver: the unread bytes of the current part, then the parts
after it. -/
def rest (psr : PartSetReader) : Bytes := psr.reader ++ heldBytes (psr.parts.drop (psr.i + 1).toNat)

/-- A reader on parts that are all present. -/
def Held (psr : PartSetReader) : Prop := 0 ≤ psr.i ∧ ∀ p ∈ psr.parts, p.isSome

theorem rest_eq_of_end {psr : PartSetReader} (hend : psr.parts.length ≤ psr.i + 1) :
    psr.rest = psr.reader := by
  simp [rest, List.drop_eq_nil_of_le (show psr.parts.length ≤ (psr.i + 1).toNat by omega)]

theorem rest_next {psr : PartSetReader} (hi : 0 ≤ psr.i) {p : Part}
    (hp : psr.parts[(psr.i + 1).toNat]? = some (some p)) :
    heldBytes (psr.parts.drop (psr.i + 1).toNat) =
      p.Bytes ++ heldBytes (psr.parts.drop (psr.i + 1 + 1).toNat) := by
  rw [List.drop_eq_getElem_cons (List.getElem?_eq_some_iff.mp hp).1,
    (List.getElem?_eq_some_iff.mp hp).2, heldBytes_cons_some, show (psr.i + 1 + 1).toNat =
      (psr.i + 1).toNat + 1 by omega]

/-- One read into a buffer of at least one byte, on held parts: it returns, the bytes it
returns are a prefix of what was left and the reader keeps the rest, it returns some bytes unless
it reports `io.EOF`, and it reports `io.EOF` only with nothing left. -/
theorem read_spec {psr : PartSetReader} (hheld : psr.Held) {n : Nat} (hn : 0 < n) :
    ∃ b err psr', psr.Read n = .ok ((b, err), psr') ∧ psr'.parts = psr.parts ∧ psr'.Held ∧
      b ++ psr'.rest = psr.rest ∧ (err = none → b ≠ []) ∧ (err = some .EOF → psr'.rest = []) := by
  fun_induction Read psr n with
  | case1 psr n readerLen hge res reader hres =>
      -- the current part has at least `n` unread bytes
      have hne : psr.reader ≠ [] := List.ne_nil_of_length_pos (by omega)
      simp only [bytesReaderRead, if_neg hne] at hres
      cases hres
      refine ⟨_, _, _, rfl, rfl, hheld, ?_, fun _ => ?_, by simp⟩
      · simp only [rest]
        rw [← List.append_assoc, List.take_append_drop]
      · simp only [ne_eq, List.take_eq_nil_iff, not_or]
        exact ⟨by omega, hne⟩
  | case2 psr n readerLen hlt hpos b₁ err reader hres herr =>
      have hne : psr.reader ≠ [] := List.ne_nil_of_length_pos hpos
      simp only [bytesReaderRead, if_neg hne, Prod.mk.injEq] at hres
      obtain ⟨⟨-, rfl⟩, -⟩ := hres
      simp at herr
  | case3 psr n readerLen hlt hpos b₁ err reader hres herr ih =>
      -- the rest of the current part, then a read on the next parts
      have hne : psr.reader ≠ [] := List.ne_nil_of_length_pos hpos
      simp only [bytesReaderRead, if_neg hne, Prod.mk.injEq] at hres
      obtain ⟨⟨rfl, rfl⟩, -⟩ := hres
      obtain ⟨b₂, err₂, psr', hr, hparts, hheld', hrest, hnone, heof⟩ :=
        ih ⟨hheld.1, hheld.2⟩ (by omega)
      refine ⟨psr.reader.take psr.reader.length ++ b₂, err₂, psr', ?_, hparts, hheld', ?_,
        fun _ => by simp [hne], heof⟩
      · simp only [hr, Result.ok_bind]
        rfl
      · rw [List.append_assoc, hrest]
        simp [rest]
  | case4 psr n readerLen hlt hzero i hend =>
      -- no part left: `io.EOF`, with nothing left to deliver
      have hnil : psr.reader = [] := List.eq_nil_of_length_eq_zero (by omega)
      refine ⟨[], some .EOF, _, rfl, rfl, ⟨by dsimp only; have := hheld.1; omega, hheld.2⟩, ?_,
        by simp, fun _ => ?_⟩
      · rw [List.nil_append, rest_eq_of_end (by dsimp only; omega), rest_eq_of_end (by omega)]
      · rw [rest_eq_of_end (by dsimp only; omega)]
        exact hnil
  | case5 psr n readerLen hlt hzero i hnext ih =>
      -- the current part is used up: the reader moves to the next one, which is held
      have hnil : psr.reader = [] := List.eq_nil_of_length_eq_zero (by omega)
      obtain ⟨hi0, hall⟩ := hheld
      have hi : (psr.i + 1).toNat < psr.parts.length := by omega
      obtain ⟨p, hp⟩ := Option.isSome_iff_exists.mp (hall _ (List.getElem_mem hi))
      have hp' : psr.parts[(psr.i + 1).toNat]? = some (some p) :=
        List.getElem?_eq_some_iff.mpr ⟨hi, hp⟩
      have hidx : index psr.parts i = .ok (some p) := by
        rw [show i = ((psr.i + 1).toNat : Int) by omega, index_of_lt hi, hp]
      obtain ⟨b, err, psr', hr, hparts, hheld', hrest, hnone, heof⟩ :=
        ih p ⟨by dsimp only; omega, hall⟩ hn
      refine ⟨b, err, psr', by simp only [hidx, Result.ok_bind, hr], hparts, hheld', ?_, hnone,
        heof⟩
      rw [hrest]
      simp only [rest, hnil, List.nil_append, rest_next hi0 hp']
      rfl

/-- A caller reading into buffers of the sizes `ns` in turn, up to the first error: the bytes it
got, and whether it stopped at `io.EOF`. -/
def readSeq : PartSetReader → List Nat → Result (Bytes × Bool)
  | _, [] => .ok ([], false)
  | psr, n :: ns => do
      let ((b, err), psr) ← psr.Read n
      match err with
      | some .EOF => .ok (b, true)
      | none => do
          let (b', eof) ← readSeq psr ns
          .ok (b ++ b', eof)

/-- Reading held parts with buffers of at least one byte never fails; what it gets is a prefix
of what the reader had left, all of it once `io.EOF` is reported, and `io.EOF` comes after at
most one read more than there are bytes left. -/
theorem readSeq_spec {psr : PartSetReader} (hheld : psr.Held) {ns : List Nat}
    (hns : ∀ n ∈ ns, 0 < n) :
    ∃ b eof, readSeq psr ns = .ok (b, eof) ∧ b <+: psr.rest ∧ (eof = true → b = psr.rest) ∧
      (psr.rest.length < ns.length → eof = true) := by
  induction ns generalizing psr with
  | nil => exact ⟨[], false, rfl, List.nil_prefix, by simp, by simp⟩
  | cons n ns ih =>
      obtain ⟨b, err, psr', hr, -, hheld', hrest, hnone, heof⟩ :=
        read_spec hheld (hns n List.mem_cons_self)
      rcases err with _ | ⟨⟨⟩⟩
      · -- a read with data: the rest is read on from the reader it leaves
        obtain ⟨b', eof, hr', hpre, heq, hlen⟩ :=
          ih hheld' (fun m hm => hns m (List.mem_cons_of_mem n hm))
        have hb : b ≠ [] := hnone rfl
        refine ⟨b ++ b', eof, by simp only [readSeq, hr, hr', Result.ok_bind], ?_, ?_, ?_⟩
        · rw [← hrest]
          exact List.prefix_append_right_inj b |>.mpr hpre
        · intro he
          rw [heq he, hrest]
        · intro hl
          have hpos : 0 < b.length := List.length_pos_of_ne_nil hb
          have hsum := congrArg List.length hrest
          rw [List.length_append] at hsum
          exact hlen (by simp only [List.length_cons] at hl; omega)
      · -- `io.EOF`: nothing is left after what this read returned
        have hnil := heof rfl
        refine ⟨b, true, by simp only [readSeq, hr, Result.ok_bind], ?_, fun _ => ?_, fun _ => rfl⟩
        · rw [← hrest]
          exact List.prefix_append b _
        · rw [← hrest, hnil, List.append_nil]

end PartSetReader

namespace PartSet

variable (h : Hasher)

/-- The bookkeeping of a part set: a slot per part, and `count` the number of held slots. -/
structure Inv (ps : PartSet) : Prop where
  total_nonneg : 0 ≤ ps.total
  length : ps.parts.length = ps.total.toNat
  count : ps.count = ps.parts.countP Option.isSome

theorem newPartSetFromHeader_inv {header : PartSetHeader} {ps : PartSet}
    (hps : NewPartSetFromHeader header = .ok ps) : ps.Inv ∧ ps.Header = header := by
  unfold NewPartSetFromHeader at hps
  split_ifs at hps with hneg
  cases hps
  exact ⟨⟨show 0 ≤ header.Total by omega, by simp, by simp [List.countP_replicate]⟩, rfl⟩

theorem addPart_cases {ps ps' : PartSet} {part : Part} {r : Bool × Option PartSetError}
    (hadd : ps.AddPart h part = .ok (r, ps')) :
    ps' = ps ∨ (r = (true, none) ∧ 0 ≤ part.Index ∧ ∃ hi : part.Index.toNat < ps.parts.length,
      ps.parts[part.Index.toNat] = none ∧ part.Proof.Verify h ps.hash part.Bytes = .ok none ∧
      ps' = { ps with parts := ps.parts.set part.Index.toNat (some part), count := ps.count + 1 }) := by
  unfold AddPart at hadd
  split_ifs at hadd with hge
  · cases hadd
    exact .inl rfl
  obtain ⟨held, hheld, hadd⟩ := Result.bind_eq_ok.mp hadd
  unfold index at hheld
  split_ifs at hheld with hi
  cases hheld
  split_ifs at hadd with hsome
  · cases hadd
    exact .inl rfl
  obtain ⟨err, herr, hadd⟩ := Result.bind_eq_ok.mp hadd
  split_ifs at hadd with herrs
  · cases hadd
    exact .inl rfl
  obtain ⟨parts, hparts, hadd⟩ := Result.bind_eq_ok.mp hadd
  rw [update, if_pos hi] at hparts
  cases hparts
  cases hadd
  have hlt : part.Index.toNat < ps.parts.length := by omega
  rw [getElem!_pos ps.parts _ hlt] at hsome
  refine .inr ⟨rfl, hi.1, hlt, by simpa using hsome, ?_, rfl⟩
  rw [herr, Option.not_isSome_iff_eq_none.mp herrs]

theorem addPart_inv {ps ps' : PartSet} {part : Part} {r : Bool × Option PartSetError}
    (hinv : ps.Inv) (hadd : ps.AddPart h part = .ok (r, ps')) :
    ps'.Inv ∧ ps'.Header = ps.Header := by
  rcases addPart_cases h hadd with rfl | ⟨-, -, hi, hnone, -, rfl⟩
  · exact ⟨hinv, rfl⟩
  refine ⟨⟨hinv.total_nonneg, by simp [hinv.length], ?_⟩, rfl⟩
  rw [List.countP_set hi, hnone, hinv.count]
  simp

theorem Inv.held_of_complete {ps : PartSet} (hinv : ps.Inv) (hc : ps.IsComplete = true) :
    ∀ p ∈ ps.parts, p.isSome := by
  have hcount : ps.parts.countP Option.isSome = ps.parts.length := by
    simp only [IsComplete, decide_eq_true_eq] at hc
    have := hinv.count
    have := hinv.length
    have := hinv.total_nonneg
    omega
  exact List.countP_eq_length.mp hcount

theorem getReader_spec {ps : PartSet} (hinv : ps.Inv) (hc : ps.IsComplete = true)
    (hpos : 0 < ps.total) :
    ∃ psr, ps.GetReader = .ok psr ∧ psr.Held ∧ psr.rest = heldBytes ps.parts := by
  have hheld := hinv.held_of_complete hc
  have h0 : 0 < ps.parts.length := by rw [hinv.length]; omega
  obtain ⟨p, hp⟩ := Option.isSome_iff_exists.mp (hheld _ (List.getElem_mem h0))
  have hidx : index ps.parts 0 = .ok (some p) := by
    rw [← hp]
    exact index_of_lt h0
  refine ⟨⟨0, ps.parts, p.Bytes⟩, ?_, ⟨le_refl 0, hheld⟩, ?_⟩
  · simp only [GetReader, hc, Bool.not_true, Bool.false_eq_true, if_false, NewPartSetReader, hidx,
      Result.ok_bind]
    rfl
  · show p.Bytes ++ heldBytes (ps.parts.drop 1) = heldBytes ps.parts
    conv_rhs => rw [← List.drop_zero (l := ps.parts), List.drop_eq_getElem_cons h0, hp, heldBytes_cons_some]

/-- The part sets a receiver holds: made from a header, then given any parts in any order. -/
def Reachable (header : PartSetHeader) : PartSet → Prop :=
  Transition.Reachable (fun ps => NewPartSetFromHeader header = .ok ps)
    (fun ps ps' => ∃ part r, ps.AddPart h part = .ok (r, ps'))

/-- A receiver's part set: its bookkeeping holds, it keeps the header, and every part it holds
sits at its own index and came with a proof that verifies against the root. -/
structure Sound (header : PartSetHeader) (ps : PartSet) : Prop extends ps.Inv where
  header : ps.Header = header
  index : ∀ (j : Nat) (p : Part), ps.parts[j]? = some (some p) → p.Index = j
  verified : ∀ (j : Nat) (p : Part), ps.parts[j]? = some (some p) →
    p.Proof.Verify h ps.hash p.Bytes = .ok none

theorem addPart_sound {header : PartSetHeader} {ps ps' : PartSet} {part : Part}
    {r : Bool × Option PartSetError} (hs : Sound h header ps)
    (hadd : ps.AddPart h part = .ok (r, ps')) : Sound h header ps' := by
  obtain ⟨hinv', hheader⟩ := addPart_inv h hs.toInv hadd
  rcases addPart_cases h hadd with rfl | ⟨-, hi0, hi, -, hv, rfl⟩
  · exact hs
  -- the new slot holds `part`; every other slot is as it was
  have hslot : ∀ (j : Nat) (p : Part), (ps.parts.set part.Index.toNat (some part))[j]? = some (some p) →
      (j = part.Index.toNat ∧ p = part) ∨ ps.parts[j]? = some (some p) := by
    intro j p hj
    rw [List.getElem?_set] at hj
    split_ifs at hj with hji
    · simp only [Option.some.injEq] at hj
      exact .inl ⟨hji.symm, hj.symm⟩
    · exact .inr hj
  refine ⟨hinv', hheader.trans hs.header, fun j p hj => ?_, fun j p hj => ?_⟩
  · rcases hslot j p hj with ⟨rfl, rfl⟩ | hj
    · omega
    · exact hs.index j p hj
  · rcases hslot j p hj with ⟨rfl, rfl⟩ | hj
    · exact hv
    · exact hs.verified j p hj

theorem Reachable.sound {header : PartSetHeader} {ps : PartSet} (hr : Reachable h header ps) :
    Sound h header ps := by
  refine Transition.Reachable.invariant (fun ps hps => ?_) (fun _ _ _ hs ⟨_, _, hadd⟩ =>
    addPart_sound h hs hadd) hr
  obtain ⟨hinv, hheader⟩ := newPartSetFromHeader_inv hps
  unfold NewPartSetFromHeader at hps
  split_ifs at hps
  cases hps
  exact ⟨hinv, hheader, fun j p hj => by simp [List.getElem?_replicate] at hj,
    fun j p hj => by simp [List.getElem?_replicate] at hj⟩

/-- A receiver that holds every part reads back the bytes of the parts it holds, in slot order,
whatever buffer sizes it reads with; each of those parts sits at its own index and came with a
proof that verifies against the header's root. Which part that proof is for is not checked. -/
theorem reachable_complete_read {header : PartSetHeader} {ps : PartSet}
    (hr : Reachable h header ps) (hc : ps.IsComplete = true) (hpos : 0 < header.Total) :
    (∀ (j : Nat) (p : Part), ps.parts[j]? = some (some p) →
      p.Index = j ∧ p.Proof.Verify h header.Hash p.Bytes = .ok none) ∧
    ∃ psr, ps.GetReader = .ok psr ∧ ∀ ns : List Nat, (∀ n ∈ ns, 0 < n) →
      ∃ b eof, psr.readSeq ns = .ok (b, eof) ∧ b <+: heldBytes ps.parts ∧
        (eof = true → b = heldBytes ps.parts) ∧
        ((heldBytes ps.parts).length < ns.length → eof = true) := by
  have hs := hr.sound
  have hhash : ps.hash = header.Hash := congrArg PartSetHeader.Hash hs.header
  have htotal : ps.total = header.Total := congrArg PartSetHeader.Total hs.header
  refine ⟨fun j p hj => ⟨hs.index j p hj, hhash ▸ hs.verified j p hj⟩, ?_⟩
  obtain ⟨psr, hget, hheld, hrest⟩ := getReader_spec hs.toInv hc (htotal ▸ hpos)
  refine ⟨psr, hget, fun ns hns => ?_⟩
  rw [← hrest]
  exact PartSetReader.readSeq_spec hheld hns

/-- The block `[1, 2]` in two parts of one byte, received in order. -/
theorem reachable_complete_read_two :
    let h : Merkle.Hasher := ⟨List.cons 0⟩
    let part₀ : Part := ⟨0, [1], ⟨2, 0, [0, 0, 1], [[0, 0, 2]]⟩⟩
    let part₁ : Part := ⟨1, [2], ⟨2, 1, [0, 0, 2], [[0, 0, 1]]⟩⟩
    let header : PartSetHeader := ⟨2, [0, 1, 0, 0, 1, 0, 0, 2]⟩
    let ps : PartSet := ⟨2, [0, 1, 0, 0, 1, 0, 0, 2], [some part₀, some part₁], 2⟩
    Reachable h header ps ∧ ps.IsComplete = true ∧ 0 < header.Total ∧ heldBytes ps.parts = [1, 2] ∧
    (∀ (j : Nat) (p : Part), ps.parts[j]? = some (some p) →
      p.Index = j ∧ p.Proof.Verify h header.Hash p.Bytes = .ok none) ∧
    ∃ psr, ps.GetReader = .ok psr ∧ ∀ ns : List Nat, (∀ n ∈ ns, 0 < n) →
      ∃ b eof, psr.readSeq ns = .ok (b, eof) ∧ b <+: heldBytes ps.parts ∧
        (eof = true → b = heldBytes ps.parts) ∧
        ((heldBytes ps.parts).length < ns.length → eof = true) := by
  intro h part₀ part₁ header ps
  let ps₀ : PartSet := ⟨2, [0, 1, 0, 0, 1, 0, 0, 2], [none, none], 0⟩
  let ps₁ : PartSet := ⟨2, [0, 1, 0, 0, 1, 0, 0, 2], [some part₀, none], 1⟩
  have h₀ : NewPartSetFromHeader header = .ok ps₀ := by decide +kernel
  have h₁ : ps₀.AddPart h part₀ = .ok ((true, none), ps₁) := by decide +kernel
  have h₂ : ps₁.AddPart h part₁ = .ok ((true, none), ps) := by decide +kernel
  have hr : Reachable h header ps := .step (.step (.init h₀) ⟨_, _, h₁⟩) ⟨_, _, h₂⟩
  exact ⟨hr, rfl, by decide, rfl, reachable_complete_read h hr rfl (by decide)⟩

/-- Two parts of one byte each. The genuine second part, given the first slot's index, verifies
(its proof is for index 1, which `AddPart` does not compare), so after the genuine second part
the set is complete and reads back `[2, 2]` in place of the block `[1, 2]`. -/
theorem addPart_accepts_misplaced_part :
    let h : Hasher := ⟨List.cons 0⟩
    let part₀ : Part := ⟨0, [1], ⟨2, 0, [0, 0, 1], [[0, 0, 2]]⟩⟩
    let part₁ : Part := ⟨1, [2], ⟨2, 1, [0, 0, 2], [[0, 0, 1]]⟩⟩
    let root : Bytes := [0, 1, 0, 0, 1, 0, 0, 2]
    let ps : PartSet := ⟨2, root, [some part₀, some part₁], 2⟩
    let ps₀ : PartSet := ⟨2, root, [none, none], 0⟩
    let ps₁ : PartSet := ⟨2, root, [some { part₁ with Index := 0 }, none], 1⟩
    let ps₂ : PartSet := ⟨2, root, [some { part₁ with Index := 0 }, some part₁], 2⟩
    Function.Injective h.Sum ∧ NewPartSetFromData h [1, 2] 1 = .ok ps ∧
      NewPartSetFromHeader ps.Header = .ok ps₀ ∧
      ps₀.AddPart h { part₁ with Index := 0 } = .ok ((true, none), ps₁) ∧
      ps₁.AddPart h part₁ = .ok ((true, none), ps₂) ∧ ps₂.IsComplete = true ∧
      ∃ psr, ps₂.GetReader = .ok psr ∧ psr.readSeq [1, 1, 1] = .ok ([2, 2], true) :=
  ⟨List.cons_injective, by decide +kernel, by decide +kernel, by decide +kernel, by decide +kernel,
    by decide, ⟨0, [some ⟨0, [2], ⟨2, 1, [0, 0, 2], [[0, 0, 1]]⟩⟩,
      some ⟨1, [2], ⟨2, 1, [0, 0, 2], [[0, 0, 1]]⟩⟩], [2]⟩, by decide +kernel, by decide +kernel⟩

end PartSet

end Dgrid.Types
