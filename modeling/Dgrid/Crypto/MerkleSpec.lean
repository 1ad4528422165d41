import Dgrid.Crypto.Merkle
import Dgrid.Lib.MerkleTree

/-! The simple Merkle tree of `pkg/crypto/merkle` refines the split-rule trees of
`MerkleTree`: `SimpleHashFromByteSlices` is the tree's root under the split of `getSplitPoint`,
`computeHashFromAunts` rebuilds it from the aunts, and the proofs `trailsFromByteSlices` leaves in
its heap of linked nodes flatten to the tree's aunts. Completeness and binding then come from the
tree's. -/

namespace Dgrid.Merkle
open Go MerkleTree

/-- The split rule of `getSplitPoint`. -/
def splitRule : Splitter where
  split n := if 2 ^ n.log2 = n then 2 ^ n.log2 / 2 else 2 ^ n.log2
  pos n hn := by
    have hlt : n < 2 ^ (n.log2 + 1) := Nat.lt_log2_self
    have hpos : 1 ≤ 2 ^ n.log2 := Nat.one_le_two_pow
    split_ifs <;> omega
  lt n hn := by
    have hle : 2 ^ n.log2 ≤ n := Nat.log2_self_le (by omega)
    split_ifs <;> omega

theorem getSplitPoint_eq_split {n : Nat} (hn : 1 ≤ n) : getSplitPoint n = .ok (splitRule.split n) :=
  getSplitPoint_of_pos hn

variable (h : Hasher)

theorem simpleHashFromByteSlices_eq (items : List Bytes) :
    SimpleHashFromByteSlices h items = .ok (root splitRule (leafHash h) (innerHash h) items) := by
  fun_induction SimpleHashFromByteSlices h items with
  | case1 =>
      rw [root]
      rfl
  | case2 x => rw [root]
  | case3 x y rest m hk =>
      rw [getSplitPoint_eq_split (by simp)] at hk
      cases hk
  | case4 x y rest k hk ihl ihr =>
      rw [getSplitPoint_eq_split (by simp), Result.ok.injEq] at hk
      subst hk
      simp only [Int.toNat_natCast] at ihl ihr ⊢
      rw [ihl, Result.ok_bind, ihr, Result.ok_bind, Result.pure_eq, root_cons_cons]

section Nonempty

variable {h} (hne : ∀ b, h.Sum b ≠ [])
include hne

theorem innerHash_ne_nil (a b : Bytes) : innerHash h a b ≠ [] := hne _

theorem rebuildRev_ne_nil {lh : Bytes} (hlh : lh ≠ []) {rev : List Bytes} {i n : Nat} {r : Bytes}
    (hr : rebuildRev splitRule (innerHash h) i n lh rev = some r) : r ≠ [] :=
  @rebuildRev_digest _ splitRule (innerHash h) (· ≠ []) (innerHash_ne_nil hne) lh hlh rev i n r hr

theorem nilCheck_eq {lh : Bytes} (hlh : lh ≠ []) {rev : List Bytes} {i n : Nat}
    (f : Bytes → Bytes) :
    (if (rebuildRev splitRule (innerHash h) i n lh rev).getD [] = [] then Result.ok []
      else .ok (f ((rebuildRev splitRule (innerHash h) i n lh rev).getD []))) =
      .ok (((rebuildRev splitRule (innerHash h) i n lh rev).map f).getD []) := by
  cases hr : rebuildRev splitRule (innerHash h) i n lh rev with
  | none => rfl
  | some r => simp [rebuildRev_ne_nil hne hlh hr]

theorem computeHashFromAunts_eq {lh : Bytes} (hlh : lh ≠ []) {index : Int} (hi : 0 ≤ index)
    (total : Int) (innerHashes : List Bytes) :
    computeHashFromAunts h index total lh innerHashes =
      .ok ((rebuild splitRule (innerHash h) index.toNat total.toNat lh innerHashes).getD []) := by
  fun_induction computeHashFromAunts h index total lh innerHashes with
  | case1 index total as hout =>
      rw [rebuild, rebuildRev_of_le _ _ (by omega)]
      rfl
  | case2 index hout => omega
  | case3 index as hlen hin _ =>
      -- one leaf, with aunts left over
      obtain ⟨a, rest, hrev⟩ : ∃ a rest, as.reverse = a :: rest :=
        List.exists_cons_of_ne_nil (by simpa using hlen)
      rw [rebuild, hrev, rebuildRev, if_pos (.inr rfl)]
      rfl
  | case4 index as hlen hin _ =>
      obtain rfl : as = [] := List.eq_nil_of_length_eq_zero (by simpa using hlen)
      obtain rfl : index = 0 := by omega
      rfl
  | case5 index total as hout h0 h1 hlen =>
      obtain rfl : as = [] := List.eq_nil_of_length_eq_zero hlen
      rw [rebuild, List.reverse_nil, rebuildRev, if_neg (by omega)]
      rfl
  | case6 index total as hout h0 h1 hlen ihl ihr =>
      obtain ⟨n, rfl⟩ : ∃ n : Nat, total = n := ⟨total.toNat, by omega⟩
      have has : as ≠ [] := List.ne_nil_of_length_pos (by omega)
      -- the aunt consumed here is the last one, and the rest are rebuilt below it
      have hrev : as.reverse = as[as.length - 1] :: as.dropLast.reverse := by
        conv_lhs => rw [← List.dropLast_append_getLast has]
        rw [List.reverse_append, List.getLast_eq_getElem]
        rfl
      rw [getSplitPoint_eq_split (by omega), Result.ok_bind, rebuild, hrev, rebuildRev,
        Int.toNat_natCast, if_neg (show ¬(n ≤ index.toNat ∨ n = 1) by omega)]
      dsimp only
      split_ifs with hk hk'
      · rw [ihl _ hi, Result.ok_bind, Int.toNat_natCast, rebuild]
        exact nilCheck_eq hne hlh (fun x => innerHash h x as[as.length - 1])
      · omega
      · omega
      · rw [ihr _ (by omega), Result.ok_bind, show (index - (splitRule.split n : Int)).toNat =
          index.toNat - splitRule.split n by omega, show ((n : Int) - splitRule.split n).toNat =
          n - splitRule.split n by omega, rebuild]
        exact nilCheck_eq hne hlh (innerHash h as[as.length - 1])

end Nonempty

/-! The heap of proof nodes. -/

theorem getElem!_of_getElem? {heap : List SimpleProofNode} {j : Nat} {n : SimpleProofNode}
    (hj : heap[j]? = some n) : heap[j]! = n := by
  rw [List.getElem!_eq_getElem?_getD, hj, Option.getD_some]

/-- The sibling `FlattenAunts` reads: the left one if set, else the right one. -/
def SimpleProofNode.sibling (n : SimpleProofNode) : Option Nat := n.Left.or n.Right

theorem flattenAunts_succ {heap : List SimpleProofNode} {p : Nat} {n : SimpleProofNode}
    (hp : heap[p]? = some n) (fuel : Nat) (acc : List Bytes) :
    flattenAunts heap (fuel + 1) (some p) acc =
      match n.sibling with
      | some s => flattenAunts heap fuel n.Parent (acc ++ [heap[s]!.Hash])
      | none => acc := by
  rw [flattenAunts, getElem!_of_getElem? hp, SimpleProofNode.sibling]
  rcases n.Left with _ | l <;> rcases n.Right with _ | r <;> rfl

/-- Walking up the heap from node `p` reaches node `r`, recording the sibling hashes `as`. -/
inductive Path (heap : List SimpleProofNode) : Nat → Nat → List Bytes → Prop
  | here (r : Nat) : Path heap r r []
  | up {p q s r : Nat} {n ns : SimpleProofNode} {as : List Bytes} :
      heap[p]? = some n → n.sibling = some s → heap[s]? = some ns → n.Parent = some q →
      Path heap q r as → Path heap p r (ns.Hash :: as)

theorem Path.trans {heap : List SimpleProofNode} {p q r : Nat} {as bs : List Bytes}
    (h₁ : Path heap p q as) (h₂ : Path heap q r bs) : Path heap p r (as ++ bs) := by
  induction h₁ with
  | here => exact h₂
  | up hp hs hns hq _ ih => exact .up hp hs hns hq (ih h₂)

theorem flattenAunts_of_path {heap : List SimpleProofNode} {p r : Nat} {as : List Bytes}
    (hpath : Path heap p r as) {nr : SimpleProofNode} (hr : heap[r]? = some nr)
    (hs : nr.sibling = none) :
    ∀ fuel acc, as.length ≤ fuel → flattenAunts heap fuel (some p) acc = acc ++ as := by
  induction hpath with
  | here r =>
      intro fuel acc _
      cases fuel with
      | zero => simp [flattenAunts]
      | succ fuel => rw [flattenAunts_succ hr, hs, List.append_nil]
  | @up p q s r n ns as hp hsib hns hq _ ih =>
      intro fuel acc hfuel
      obtain ⟨fuel, rfl⟩ : ∃ f, fuel = f + 1 := ⟨fuel - 1, by simp at hfuel; omega⟩
      rw [flattenAunts_succ hp, hsib]
      dsimp only
      rw [hq, getElem!_of_getElem? hns, ih hr fuel _ (by simpa using hfuel)]
      simp

/-- What later writes keep of a heap: every node stays, with its hash, and a node with a sibling
stays as it is. -/
structure Keeps (heap heap' : List SimpleProofNode) : Prop where
  hash : ∀ (j : Nat) (n : SimpleProofNode), heap[j]? = some n →
    ∃ n' : SimpleProofNode, heap'[j]? = some n' ∧ n'.Hash = n.Hash
  linked : ∀ (j : Nat) (n : SimpleProofNode), heap[j]? = some n → n.sibling.isSome →
    heap'[j]? = some n

theorem Keeps.trans {heap₁ heap₂ heap₃ : List SimpleProofNode} (h₁ : Keeps heap₁ heap₂)
    (h₂ : Keeps heap₂ heap₃) : Keeps heap₁ heap₃ where
  hash j n hj := by
    obtain ⟨n', hj', hh⟩ := h₁.hash j n hj
    obtain ⟨n'', hj'', hh'⟩ := h₂.hash j n' hj'
    exact ⟨n'', hj'', hh'.trans hh⟩
  linked j n hj hs := h₂.linked j n (h₁.linked j n hj hs) hs

theorem keeps_of_agree {heap heap' : List SimpleProofNode}
    (h : ∀ j < heap.length, heap'[j]? = heap[j]?) : Keeps heap heap' where
  hash j n hj := ⟨n, by rw [h j (List.getElem?_eq_some_iff.mp hj).1, hj], rfl⟩
  linked j n hj _ := by rw [h j (List.getElem?_eq_some_iff.mp hj).1, hj]

theorem keeps_set {heap : List SimpleProofNode} {l : Nat} {n n' : SimpleProofNode}
    (hl : heap[l]? = some n) (hs : n.sibling = none) (hh : n'.Hash = n.Hash) :
    Keeps heap (heap.set l n') where
  hash j m hj := by
    by_cases hjl : l = j
    · subst hjl
      obtain rfl : n = m := Option.some.inj (hl.symm.trans hj)
      exact ⟨n', List.getElem?_set_self (List.getElem?_eq_some_iff.mp hl).1, hh⟩
    · exact ⟨m, by rw [List.getElem?_set_ne hjl, hj], rfl⟩
  linked j m hj hm := by
    by_cases hjl : l = j
    · subst hjl
      obtain rfl : n = m := Option.some.inj (hl.symm.trans hj)
      simp [hs] at hm
    · rw [List.getElem?_set_ne hjl, hj]

theorem Path.keeps {heap heap' : List SimpleProofNode} (hk : Keeps heap heap') {p r : Nat}
    {as : List Bytes} (hpath : Path heap p r as) : Path heap' p r as := by
  induction hpath with
  | here r => exact .here r
  | up hp hs hns hq _ ih =>
      obtain ⟨ns', hns', hh⟩ := hk.hash _ _ hns
      rw [← hh]
      exact .up (hk.linked _ _ hp (by simp [hs])) hs hns' hq ih

/-- What `trailsFromByteSlices` leaves, started on `heap`, for `items`: its nodes follow `heap`,
which it keeps; the root node holds the tree's root and no links; and each item's trail holds its
leaf hash and walks up to the root through the tree's aunts. -/
structure Trails (heap heap' : List SimpleProofNode) (items : List Bytes) (trails : List Nat)
    (root : Nat) : Prop where
  length : heap'.length = heap.length + 2 * items.length - 1
  keep : ∀ j < heap.length, heap'[j]? = heap[j]?
  root_ge : heap.length ≤ root
  root_node : heap'[root]? =
    some ⟨MerkleTree.root splitRule (leafHash h) (innerHash h) items, none, none, none⟩
  trails_length : trails.length = items.length
  leaf : ∀ i (hi : i < items.length), ∃ t n, trails[i]? = some t ∧ heap'[t]? = some n ∧
    n.Hash = leafHash h items[i] ∧ Path heap' t root (aunts splitRule (leafHash h) (innerHash h) items i)

theorem trails_single (heap : List SimpleProofNode) (x : Bytes) :
    Trails h heap (heap ++ [⟨leafHash h x, none, none, none⟩]) [x] [heap.length] heap.length where
  length := by simp
  keep j hj := List.getElem?_append_left hj
  root_ge := le_rfl
  root_node := by simp [root]
  trails_length := rfl
  leaf i hi := by
    obtain rfl : i = 0 := by simpa using hi
    exact ⟨heap.length, ⟨leafHash h x, none, none, none⟩, rfl, by simp, rfl,
      by rw [aunts]; exact .here _⟩

theorem link_eq {heap : List SimpleProofNode} {l r : Nat} {nl nr : SimpleProofNode} (hlr : l ≠ r)
    (hl : heap[l]? = some nl) (hr : heap[r]? = some nr) (nroot : SimpleProofNode) :
    ((heap ++ [nroot]).set l { (heap ++ [nroot])[l]! with Parent := some heap.length, Right := some r }).set r
        { ((heap ++ [nroot]).set l
            { (heap ++ [nroot])[l]! with Parent := some heap.length, Right := some r })[r]! with
          Parent := some heap.length, Left := some l } =
      ((heap ++ [nroot]).set l { nl with Parent := some heap.length, Right := some r }).set r
        { nr with Parent := some heap.length, Left := some l } := by
  have hl' : l < heap.length := (List.getElem?_eq_some_iff.mp hl).1
  have hr' : r < heap.length := (List.getElem?_eq_some_iff.mp hr).1
  have h₃ : (heap ++ [nroot])[l]! = nl :=
    getElem!_of_getElem? (by rw [List.getElem?_append_left hl', hl])
  rw [h₃]
  have h₄ : ((heap ++ [nroot]).set l { nl with Parent := some heap.length, Right := some r })[r]! =
      nr := getElem!_of_getElem? (by rw [List.getElem?_set_ne hlr, List.getElem?_append_left hr', hr])
  rw [h₄]

/-- Linking the two subtree roots under a new root, as `trailsFromByteSlices` does after its two
calls, keeps the invariant: the left root gets the right one as sibling, and the right root the
left one. -/
theorem Trails.link {heap heap₁ heap₂ : List SimpleProofNode} {x y : Bytes} {rest : List Bytes}
    {lefts rights : List Nat} {l r : Nat}
    (hL : Trails h heap heap₁
      ((x :: y :: rest).take (splitRule.split (x :: y :: rest).length)) lefts l)
    (hR : Trails h heap₁ heap₂
      ((x :: y :: rest).drop (splitRule.split (x :: y :: rest).length)) rights r) :
    Trails h heap
      (((heap₂ ++ [(⟨innerHash h
          (root splitRule (leafHash h) (innerHash h)
            ((x :: y :: rest).take (splitRule.split (x :: y :: rest).length)))
          (root splitRule (leafHash h) (innerHash h)
            ((x :: y :: rest).drop (splitRule.split (x :: y :: rest).length))),
          none, none, none⟩ : SimpleProofNode)]).set l
        ⟨root splitRule (leafHash h) (innerHash h)
          ((x :: y :: rest).take (splitRule.split (x :: y :: rest).length)),
          some heap₂.length, none, some r⟩).set r
        ⟨root splitRule (leafHash h) (innerHash h)
          ((x :: y :: rest).drop (splitRule.split (x :: y :: rest).length)),
          some heap₂.length, some l, none⟩)
      (x :: y :: rest) (lefts ++ rights) heap₂.length := by
  have hk := splitRule.pos (x :: y :: rest).length (by simp)
  have hkn := splitRule.lt (x :: y :: rest).length (by simp)
  have hLlen := @Splitter.take_length _ splitRule x y rest
  have hRlen := @Splitter.drop_length _ splitRule x y rest
  have hN : (x :: y :: rest).length = rest.length + 2 := rfl
  have hlen₁ := hL.length
  have hlen₂ := hR.length
  have hl₁ : l < heap₁.length := (List.getElem?_eq_some_iff.mp hL.root_node).1
  have hr₂ : r < heap₂.length := (List.getElem?_eq_some_iff.mp hR.root_node).1
  have hr₁ := hR.root_ge
  have hlr : l ≠ r := by omega
  have hl₂ := hR.keep l hl₁ ▸ hL.root_node
  set k := splitRule.split (x :: y :: rest).length
  set L := (x :: y :: rest).take k
  set R := (x :: y :: rest).drop k
  set nroot : SimpleProofNode :=
    ⟨innerHash h (root splitRule (leafHash h) (innerHash h) L)
      (root splitRule (leafHash h) (innerHash h) R), none, none, none⟩
  set nl : SimpleProofNode := ⟨root splitRule (leafHash h) (innerHash h) L, some heap₂.length, none, some r⟩
  set nr : SimpleProofNode := ⟨root splitRule (leafHash h) (innerHash h) R, some heap₂.length, some l, none⟩
  -- reads of the heap after the three writes
  have h₅l : (((heap₂ ++ [nroot]).set l nl).set r nr)[l]? = some nl := by
    rw [List.getElem?_set_ne (Ne.symm hlr), List.getElem?_set_self (by simp; omega)]
  have h₅r : (((heap₂ ++ [nroot]).set l nl).set r nr)[r]? = some nr :=
    List.getElem?_set_self (by simp; omega)
  have h₅ : ∀ j, j ≠ l → j ≠ r →
      (((heap₂ ++ [nroot]).set l nl).set r nr)[j]? = (heap₂ ++ [nroot])[j]? := fun j hjl hjr => by
    rw [List.getElem?_set_ne (Ne.symm hjr), List.getElem?_set_ne (Ne.symm hjl)]
  -- everything below the new root is kept, the two subtree roots with their hashes
  have hkeep₃ : Keeps heap₂ (heap₂ ++ [nroot]) := keeps_of_agree fun j hj => List.getElem?_append_left hj
  have hkeep₄ : Keeps (heap₂ ++ [nroot]) ((heap₂ ++ [nroot]).set l nl) :=
    keeps_set (n := ⟨root splitRule (leafHash h) (innerHash h) L, none, none, none⟩)
      (by rw [List.getElem?_append_left (by omega), hl₂]) rfl rfl
  have hkeep₅ : Keeps ((heap₂ ++ [nroot]).set l nl) (((heap₂ ++ [nroot]).set l nl).set r nr) :=
    keeps_set (n := ⟨root splitRule (leafHash h) (innerHash h) R, none, none, none⟩)
      (by rw [List.getElem?_set_ne hlr, List.getElem?_append_left hr₂, hR.root_node]) rfl rfl
  have hkeep₂ := (hkeep₃.trans hkeep₄).trans hkeep₅
  have hkeep₁ := (keeps_of_agree hR.keep).trans hkeep₂
  refine ⟨by simp; omega, fun j hj => ?_, by omega, ?_, by simp [hL.trails_length, hR.trails_length]; omega,
    fun i hi => ?_⟩
  · have := hL.root_ge
    rw [h₅ j (by omega) (by omega), List.getElem?_append_left (by omega), hR.keep j (by omega),
      hL.keep j hj]
  · rw [h₅ _ (by omega) (by omega), List.getElem?_append_right le_rfl, Nat.sub_self, root_cons_cons]
    rfl
  · by_cases hik : i < k
    · -- a leaf on the left walks up to the left root, whose sibling is the right root
      obtain ⟨t, n, ht, hn, hh, hpath⟩ := hL.leaf i (by omega)
      obtain ⟨n', hn', hh'⟩ := hkeep₁.hash t n hn
      refine ⟨t, n', ?_, hn', by rw [hh', hh, List.getElem_take], ?_⟩
      · rw [List.getElem?_append_left (by rw [hL.trails_length]; omega), ht]
      · rw [aunts_cons_cons, if_pos hik]
        exact (hpath.keeps hkeep₁).trans (.up h₅l rfl h₅r rfl (.here _))
    · -- a leaf on the right walks up to the right root, whose sibling is the left root
      obtain ⟨t, n, ht, hn, hh, hpath⟩ := hR.leaf (i - k) (by omega)
      obtain ⟨n', hn', hh'⟩ := hkeep₂.hash t n hn
      refine ⟨t, n', ?_, hn', ?_, ?_⟩
      · rw [List.getElem?_append_right (by rw [hL.trails_length]; omega), hL.trails_length, hLlen, ht]
      · rw [hh', hh, List.getElem_drop]
        congr 2
        omega
      · rw [aunts_cons_cons, if_neg hik]
        exact (hpath.keeps hkeep₂).trans (.up h₅r rfl h₅l rfl (.here _))

theorem trailsFromByteSlices_spec :
    ∀ (heap : List SimpleProofNode) (items : List Bytes), items ≠ [] →
      ∃ heap' trails root, trailsFromByteSlices h heap items = .ok (heap', trails, some root) ∧
        Trails h heap heap' items trails root
  | _, [], hne => absurd rfl hne
  | heap, [x], _ => ⟨_, _, _, by rw [trailsFromByteSlices], trails_single h heap x⟩
  | heap, x :: y :: rest, _ => by
      have hk := splitRule.pos (x :: y :: rest).length (by simp)
      have hkn := splitRule.lt (x :: y :: rest).length (by simp)
      obtain ⟨heap₁, lefts, l, hl, hL⟩ := trailsFromByteSlices_spec heap
        ((x :: y :: rest).take (splitRule.split (x :: y :: rest).length))
        (List.ne_nil_of_length_pos (by rw [Splitter.take_length]; omega))
      obtain ⟨heap₂, rights, r, hr, hR⟩ := trailsFromByteSlices_spec heap₁
        ((x :: y :: rest).drop (splitRule.split (x :: y :: rest).length))
        (List.ne_nil_of_length_pos (by rw [Splitter.drop_length]; omega))
      have hl₂ : heap₂[l]? = some ⟨root splitRule (leafHash h) (innerHash h)
          ((x :: y :: rest).take (splitRule.split (x :: y :: rest).length)), none, none, none⟩ :=
        hR.keep l (List.getElem?_eq_some_iff.mp hL.root_node).1 ▸ hL.root_node
      have hlr : l ≠ r := by
        have := (List.getElem?_eq_some_iff.mp hL.root_node).1
        have := hR.root_ge
        omega
      rw [trailsFromByteSlices]
      split
      · rename_i hsplit
        rw [getSplitPoint_eq_split (by simp)] at hsplit
        cases hsplit
      · rename_i k hsplit
        rw [getSplitPoint_eq_split (by simp), Result.ok.injEq] at hsplit
        subst hsplit
        simp only [Int.toNat_natCast, hl, hr, Result.ok_bind, Result.pure_eq]
        rw [getElem!_of_getElem? hl₂, getElem!_of_getElem? hR.root_node, link_eq hlr hl₂ hR.root_node]
        exact ⟨_, _, _, rfl, hL.link h hR⟩
termination_by _ items => items.length
decreasing_by
  · exact Splitter.take_lt _
  · exact Splitter.drop_lt _

theorem simpleProofsFromByteSlices_eq {items : List Bytes} (hitems : items ≠ []) :
    SimpleProofsFromByteSlices h items =
      .ok (root splitRule (leafHash h) (innerHash h) items, items.mapIdx fun i item =>
        ⟨items.length, i, leafHash h item, aunts splitRule (leafHash h) (innerHash h) items i⟩) := by
  obtain ⟨heap, trails, r, htrails, hT⟩ := trailsFromByteSlices_spec h [] items hitems
  rw [SimpleProofsFromByteSlices, htrails, Result.ok_bind]
  dsimp only
  rw [getElem!_of_getElem? hT.root_node, Result.pure_eq]
  congr 2
  apply List.ext_getElem (by simp [hT.trails_length])
  intro i hi _
  simp only [List.length_mapIdx] at hi
  rw [List.getElem_mapIdx, List.getElem_mapIdx]
  obtain ⟨t, n, ht, hn, hh, hpath⟩ := hT.leaf i (by rw [← hT.trails_length]; exact hi)
  obtain ⟨_, ht'⟩ := List.getElem?_eq_some_iff.mp ht
  rw [ht', getElem!_of_getElem? hn, hh, FlattenAunts,
    flattenAunts_of_path hpath hT.root_node rfl _ _ ?_, List.nil_append]
  -- a walk up is shorter than the heap: the aunts are fewer than the items
  have := aunts_length_lt splitRule (leafHash h) (innerHash h) items i (by rw [← hT.trails_length]; exact hi)
  rw [hT.length]
  simp only [List.length_nil]
  omega

theorem SimpleProof.verify_eq_none_iff (sp : SimpleProof) (rootHash leaf : Bytes) :
    sp.Verify h rootHash leaf = .ok none ↔ 0 ≤ sp.Total ∧ 0 ≤ sp.Index ∧
      sp.LeafHash = leafHash h leaf ∧ sp.ComputeRootHash h = .ok rootHash := by
  rw [SimpleProof.Verify]
  split_ifs with ht hi hl
  · simp only [Result.ok.injEq, reduceCtorEq, false_iff]
    omega
  · simp only [Result.ok.injEq, reduceCtorEq, false_iff]
    omega
  · simp [hl]
  · rw [not_not] at hl
    have h0 : 0 ≤ sp.Total ∧ 0 ≤ sp.Index := ⟨by omega, by omega⟩
    cases hc : sp.ComputeRootHash h with
    | panic m => simp
    | ok c => by_cases hcr : c = rootHash <;> simp [hcr, hl, h0]

/-- Completeness: every item's proof verifies its item against the root. -/
theorem simpleProofs_verify (hne : ∀ b, h.Sum b ≠ []) {items : List Bytes} (hitems : items ≠ []) :
    ∃ root proofs, SimpleProofsFromByteSlices h items = .ok (root, proofs) ∧
      SimpleHashFromByteSlices h items = .ok root ∧ proofs.length = items.length ∧
      ∀ i (hi : i < items.length), ∃ p, proofs[i]? = some p ∧ p.Total = items.length ∧
        p.Index = i ∧ p.LeafHash = leafHash h items[i] ∧ p.Verify h root items[i] = .ok none := by
  refine ⟨_, _, simpleProofsFromByteSlices_eq h hitems, simpleHashFromByteSlices_eq h items,
    List.length_mapIdx, fun i hi => ⟨⟨items.length, i, leafHash h items[i],
      aunts splitRule (leafHash h) (innerHash h) items i⟩, by simp [hi], rfl, rfl, rfl, ?_⟩⟩
  refine (SimpleProof.verify_eq_none_iff h _ _ _).mpr ⟨by dsimp only; omega, by dsimp only; omega, rfl, ?_⟩
  rw [SimpleProof.ComputeRootHash]
  dsimp only
  rw [computeHashFromAunts_eq hne (show leafHash h items[i] ≠ [] from hne _) (by omega)]
  simp only [Int.toNat_natCast]
  rw [rebuild_aunts splitRule (leafHash h) (innerHash h) items i hi]
  rfl

theorem simpleProofs_verify_two :
    let h : Hasher := ⟨List.cons 0⟩
    let items : List Bytes := [[1], [2]]
    ∃ root proofs, SimpleProofsFromByteSlices h items = .ok (root, proofs) ∧
      SimpleHashFromByteSlices h items = .ok root ∧ proofs.length = items.length ∧
      ∀ i (hi : i < items.length), ∃ p, proofs[i]? = some p ∧ p.Total = items.length ∧
        p.Index = i ∧ p.LeafHash = leafHash h items[i] ∧ p.Verify h root items[i] = .ok none :=
  simpleProofs_verify ⟨List.cons 0⟩ (fun _ => List.cons_ne_nil _ _) (by simp)

/-- With an injective hash whose outputs vary in length, a proof for a shorter leaf verifies
against the root of two items: `innerHash` concatenates its children without marking where the
left one ends. -/
theorem identity_hash_verifies_other_leaf :
    Function.Injective (⟨id⟩ : Hasher).Sum ∧
      SimpleHashFromByteSlices ⟨id⟩ [[5, 6], [7]] = .ok [1, 0, 5, 6, 0, 7] ∧
      (⟨2, 0, [0, 5], [[6, 0, 7]]⟩ : SimpleProof).Total = [[5, 6], [7]].length ∧
      SimpleProof.Verify ⟨id⟩ ⟨2, 0, [0, 5], [[6, 0, 7]]⟩ [1, 0, 5, 6, 0, 7] [5] = .ok none ∧
      [5] ≠ [[5, 6], [7]][0] :=
  ⟨Function.injective_id, by decide +kernel, rfl, by decide +kernel, by decide⟩

/-- The inputs `SimpleHashFromByteSlices(items)` hashes: every item after the leaf prefix, and the
children of every inner node after the inner prefix. -/
def treeInputs (items : List Bytes) : List Bytes :=
  items.map (0 :: ·) ++
    (nodes splitRule (leafHash h) (innerHash h) items).map fun p => 1 :: (p.1 ++ p.2)

/-- The inputs `sp.Verify(rootHash, leaf)` hashes: the leaf after the leaf prefix, and the
children of every node `computeHashFromAunts` rebuilds from the proof's leaf hash and aunts after
the inner prefix. -/
def verifyInputs (sp : SimpleProof) (leaf : Bytes) : List Bytes :=
  (0 :: leaf) :: (rebuildRevNodes splitRule (innerHash h) sp.Index.toNat sp.Total.toNat sp.LeafHash
    sp.Aunts.reverse).map fun p => 1 :: (p.1 ++ p.2)

theorem innerInput_ne {a b c d : Bytes} (hne : a ≠ c ∨ b ≠ d)
    (hlen : a.length = c.length ∨ b.length = d.length) :
    (1 : UInt8) :: (a ++ b) ≠ 1 :: (c ++ d) := by
  intro huv
  have hab : a ++ b = c ++ d := List.cons_injective huv
  rcases hlen with hl | hl
  · obtain ⟨rfl, rfl⟩ := List.append_inj hab hl
    simp at hne
  · obtain ⟨rfl, rfl⟩ := List.append_inj' hab hl
    simp at hne

/-- Binding: with hash outputs of `tmhash.Size` bytes, a proof that verifies a leaf against the
root of the items names the position of that leaf among them, unless an input `Verify` hashes
and a different input the root's computation hashes have the same hash. -/
theorem verify_binding_or_collision (hsize : ∀ b, (h.Sum b).length = Size) {items : List Bytes}
    (hitems : items ≠ []) {sp : SimpleProof} (htotal : sp.Total = items.length)
    {rootHash leaf : Bytes} (hroot : SimpleHashFromByteSlices h items = .ok rootHash)
    (hv : sp.Verify h rootHash leaf = .ok none) :
    (0 ≤ sp.Index ∧ ∃ hi : sp.Index.toNat < items.length, leaf = items[sp.Index.toNat]) ∨
      ∃ u ∈ verifyInputs h sp leaf, ∃ v ∈ treeInputs h items, u ≠ v ∧ h.Sum u = h.Sum v := by
  obtain ⟨-, hi, hleaf, hcomp⟩ := (SimpleProof.verify_eq_none_iff h sp rootHash leaf).mp hv
  have hne : ∀ b, h.Sum b ≠ [] := fun b hb => by simpa [hb, Size] using hsize b
  rw [simpleHashFromByteSlices_eq, Result.ok.injEq] at hroot
  subst hroot
  rw [SimpleProof.ComputeRootHash, hleaf,
    computeHashFromAunts_eq hne (show leafHash h leaf ≠ [] from hne _) hi, htotal,
    Int.toNat_natCast, Result.ok.injEq] at hcomp
  -- the aunts rebuild the root, which is never nil
  have hrebuild : rebuild splitRule (innerHash h) sp.Index.toNat items.length (leafHash h leaf)
      sp.Aunts = some (root splitRule (leafHash h) (innerHash h) items) := by
    cases hr : rebuild splitRule (innerHash h) sp.Index.toNat items.length (leafHash h leaf) sp.Aunts
    · rw [hr] at hcomp
      exact absurd hcomp.symm (@root_digest _ _ _ splitRule (leafHash h) (innerHash h) (· ≠ [])
        (fun _ => hne _) (fun _ _ => hne _) items hitems)
    · rw [hr] at hcomp
      rw [← hcomp]
      rfl
  have hinputs : verifyInputs h sp leaf = (0 :: leaf) :: (rebuildRevNodes splitRule (innerHash h)
      sp.Index.toNat items.length (leafHash h leaf) sp.Aunts.reverse).map
        fun p => 1 :: (p.1 ++ p.2) := by
    rw [verifyInputs, htotal, hleaf, Int.toNat_natCast]
  rw [hinputs]
  -- every leaf and node hash is `Size` bytes long: a digest for the tree's binding
  rcases @rebuild_binding _ _ _ splitRule (leafHash h) (innerHash h) (fun x => x.length = Size)
      (fun _ => hsize _) (fun _ _ => hsize _) _ (hsize _) _ _ _ hitems hrebuild with
    ⟨hlt, hleafEq⟩ | ⟨a, b, c, d, hab, hcd, heq, hdiff, hdig⟩
  · by_cases hsame : leaf = items[sp.Index.toNat]
    · exact .inl ⟨hi, hlt, hsame⟩
    · -- the leaf and the item at its position hash alike
      refine .inr ⟨0 :: leaf, List.mem_cons_self, 0 :: items[sp.Index.toNat], ?_,
        fun h' => hsame (List.cons_injective h'), hleafEq⟩
      exact List.mem_append_left _ (List.mem_map_of_mem (List.getElem_mem hlt))
  · -- two different pairs of children give the same node
    refine .inr ⟨1 :: (a ++ b), List.mem_cons_of_mem _ (List.mem_map_of_mem hab), 1 :: (c ++ d),
      List.mem_append_right _ (List.mem_map_of_mem hcd), innerInput_ne hdiff ?_, heq⟩
    exact hdig.imp (fun hd => hd.1.trans hd.2.symm) (fun hd => hd.1.trans hd.2.symm)

theorem verify_binding_or_collision_pair :
    let h : Hasher := ⟨fun b => List.replicate 32 b.length.toUInt8⟩
    let items : List Bytes := [[1], [2, 3]]
    let sp : SimpleProof := ⟨2, 1, leafHash h [2, 3], [leafHash h [1]]⟩
    (0 ≤ sp.Index ∧ ∃ hi : sp.Index.toNat < items.length, [2, 3] = items[sp.Index.toNat]) ∨
      ∃ u ∈ verifyInputs h sp [2, 3], ∃ v ∈ treeInputs h items, u ≠ v ∧ h.Sum u = h.Sum v :=
  @verify_binding_or_collision ⟨fun b => List.replicate 32 b.length.toUInt8⟩
    (fun _ => by simp [Size]) [[1], [2, 3]] (by simp)
    ⟨2, 1, leafHash ⟨fun b => List.replicate 32 b.length.toUInt8⟩ [2, 3],
      [leafHash ⟨fun b => List.replicate 32 b.length.toUInt8⟩ [1]]⟩ rfl
    (innerHash ⟨fun b => List.replicate 32 b.length.toUInt8⟩
      (leafHash ⟨fun b => List.replicate 32 b.length.toUInt8⟩ [1])
      (leafHash ⟨fun b => List.replicate 32 b.length.toUInt8⟩ [2, 3])) [2, 3]
    (by decide +kernel) (by decide +kernel)

end Dgrid.Merkle
