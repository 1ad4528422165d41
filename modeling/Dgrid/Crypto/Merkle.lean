import Dgrid.Go.Bytes

/-! `pkg/crypto/merkle`: the simple Merkle tree of `simple_tree.go` and `hash.go`, and the proofs
of `simple_proof.go`. `tmhash.Sum` (SHA-256) lives outside the repository and is a parameter.
The proof nodes `trailsFromByteSlices` links by pointers live in a heap, a list of nodes: a
pointer is a position in it, allocating appends a node, and a write through a pointer sets the
node at its position. A nil `[]byte` is the empty list. -/

namespace Dgrid.Merkle
open Go

/-- `tmhash.Sum`. -/
structure Hasher where
  Sum : Bytes → Bytes

/-- `tmhash.Size`: the length of a SHA-256 digest. -/
def Size : Nat := 32

variable (h : Hasher)

/-- `leafHash(leaf)`: `tmhash(0x00 || leaf)`. -/
def leafHash (leaf : Bytes) : Bytes := h.Sum (0 :: leaf)

/-- `innerHash(left, right)`: `tmhash(0x01 || left || right)`. -/
def innerHash (left right : Bytes) : Bytes := h.Sum (1 :: (left ++ right))

/-- `bits.Len(x)`: the number of bits of `x`. -/
def bitsLen (x : Nat) : Nat := if x = 0 then 0 else x.log2 + 1

/-- `getSplitPoint(length)`: the largest power of two less than `length`. -/
def getSplitPoint (length : Int) : Result Int :=
  if length < 1 then .panic "Trying to split a tree with size < 1"
  else
    let uLength := length.toNat
    let bitlen := bitsLen uLength
    let k : Int := 2 ^ (bitlen - 1)
    if k = length then .ok (k / 2) else .ok k

theorem getSplitPoint_of_pos {n : Nat} (hn : 1 ≤ n) :
    getSplitPoint n = .ok ((if 2 ^ n.log2 = n then 2 ^ n.log2 / 2 else 2 ^ n.log2 : Nat) : Int) := by
  rw [getSplitPoint, if_neg (by omega)]
  simp only [Int.toNat_natCast, bitsLen, if_neg (show n ≠ 0 by omega), Nat.add_sub_cancel]
  have hcast : ((2 : Int) ^ n.log2) = ((2 ^ n.log2 : Nat) : Int) := by norm_cast
  rw [hcast]
  split_ifs with h1 h2 h2
  · rw [Int.natCast_ediv]
    rfl
  · exact absurd (by exact_mod_cast h1) h2
  · exact absurd (by rw [h2]) h1
  · rfl

theorem getSplitPoint_lt {n : Nat} (hn : 2 ≤ n) {k : Int} (hk : getSplitPoint n = .ok k) :
    1 ≤ k ∧ k < n := by
  have hle : 2 ^ n.log2 ≤ n := Nat.log2_self_le (by omega)
  have hlt : n < 2 ^ (n.log2 + 1) := Nat.lt_log2_self
  have hpos : 1 ≤ 2 ^ n.log2 := Nat.one_le_two_pow
  rw [getSplitPoint_of_pos (by omega)] at hk
  cases hk
  split_ifs <;> omega

def SimpleHashFromByteSlices : List Bytes → Result Bytes
  | [] => .ok []
  | [item] => .ok (leafHash h item)
  | x :: y :: rest =>
      match _hk : getSplitPoint (x :: y :: rest).length with
      | .panic m => .panic m
      | .ok k => do
          let left ← SimpleHashFromByteSlices ((x :: y :: rest).take k.toNat)
          let right ← SimpleHashFromByteSlices ((x :: y :: rest).drop k.toNat)
          pure (innerHash h left right)
termination_by items => items.length
decreasing_by
  all_goals
    have := getSplitPoint_lt (by simp) _hk
    simp only [List.length_take, List.length_drop, List.length_cons] at this ⊢
    omega

/-- `computeHashFromAunts(index, total, leafHash, innerHashes)`: the root rebuilt from a leaf
hash and the aunts, the last aunt first; nil for a bad index or a wrong number of aunts. -/
def computeHashFromAunts (index total : Int) (leafHash : Bytes) (innerHashes : List Bytes) :
    Result Bytes :=
  if index ≥ total ∨ index < 0 ∨ total ≤ 0 then .ok []
  else if total = 0 then .panic "Cannot call computeHashFromAunts() with 0 total"
  else if total = 1 then
    if innerHashes.length ≠ 0 then .ok [] else .ok leafHash
  else if hlen : innerHashes.length = 0 then .ok []
  else do
    let numLeft ← getSplitPoint total
    if index < numLeft then do
      let leftHash ← computeHashFromAunts index numLeft leafHash innerHashes.dropLast
      if leftHash = [] then .ok []
      else .ok (innerHash h leftHash innerHashes[innerHashes.length - 1])
    else do
      let rightHash ←
        computeHashFromAunts (index - numLeft) (total - numLeft) leafHash innerHashes.dropLast
      if rightHash = [] then .ok []
      else .ok (innerHash h innerHashes[innerHashes.length - 1] rightHash)
termination_by innerHashes.length
decreasing_by all_goals (simp only [List.length_dropLast]; omega)

/-- `SimpleProof`. -/
structure SimpleProof where
  Total : Int
  Index : Int
  LeafHash : Bytes
  Aunts : List Bytes

/-- The errors of `SimpleProof.Verify`. -/
inductive VerifyError where
  /-- `"Proof total must be positive"` -/
  | totalNegative
  /-- `"Proof index cannot be negative"` -/
  | indexNegative
  /-- `"invalid leaf hash: wanted %X got %X"` -/
  | invalidLeafHash (wanted got : Bytes)
  /-- `"invalid root hash: wanted %X got %X"` -/
  | invalidRootHash (wanted got : Bytes)
deriving DecidableEq

namespace SimpleProof

def ComputeRootHash (sp : SimpleProof) : Result Bytes :=
  computeHashFromAunts h sp.Index sp.Total sp.LeafHash sp.Aunts

def Verify (sp : SimpleProof) (rootHash leaf : Bytes) : Result (Option VerifyError) :=
  let leafHash := leafHash h leaf
  if sp.Total < 0 then .ok (some .totalNegative)
  else if sp.Index < 0 then .ok (some .indexNegative)
  else if sp.LeafHash ≠ leafHash then .ok (some (.invalidLeafHash leafHash sp.LeafHash))
  else do
    let computedHash ← sp.ComputeRootHash h
    if computedHash ≠ rootHash then .ok (some (.invalidRootHash rootHash computedHash))
    else .ok none

end SimpleProof

/-- `SimpleProofNode`: a hash and the pointers to the parent and to one sibling. -/
structure SimpleProofNode where
  Hash : Bytes
  Parent : Option Nat
  Left : Option Nat
  Right : Option Nat
deriving Inhabited

/-- `trailsFromByteSlices(items)`: the heap after, the leaf node of each item, and the root. The
root of each half gets the other half's root as its sibling and the new root as its parent. -/
def trailsFromByteSlices (heap : List SimpleProofNode) :
    List Bytes → Result (List SimpleProofNode × List Nat × Option Nat)
  | [] => .ok (heap, [], none)
  | [item] => .ok (heap ++ [⟨leafHash h item, none, none, none⟩], [heap.length], some heap.length)
  | x :: y :: rest =>
      match _hk : getSplitPoint (x :: y :: rest).length with
      | .panic m => .panic m
      | .ok k => do
          let (heap, lefts, leftRoot) ← trailsFromByteSlices heap ((x :: y :: rest).take k.toNat)
          let (heap, rights, rightRoot) ← trailsFromByteSlices heap ((x :: y :: rest).drop k.toNat)
          match leftRoot, rightRoot with
          | some l, some r =>
              let root := heap.length
              let heap := heap ++ [⟨innerHash h heap[l]!.Hash heap[r]!.Hash, none, none, none⟩]
              let heap := heap.set l { heap[l]! with Parent := some root, Right := some r }
              let heap := heap.set r { heap[r]! with Parent := some root, Left := some l }
              pure (heap, lefts ++ rights, some root)
          | _, _ => .panic "invalid memory address or nil pointer dereference"
termination_by items => items.length
decreasing_by
  all_goals
    have := getSplitPoint_lt (by simp) _hk
    simp only [List.length_take, List.length_drop, List.length_cons] at this ⊢
    omega

/-- The loop of `FlattenAunts`: walk up, collecting each node's sibling hash, until a node
without a sibling; `fuel` bounds the rounds. -/
def flattenAunts (heap : List SimpleProofNode) : Nat → Option Nat → List Bytes → List Bytes
  | 0, _, innerHashes => innerHashes
  | _ + 1, none, innerHashes => innerHashes
  | fuel + 1, some spn, innerHashes =>
      match heap[spn]!.Left, heap[spn]!.Right with
      | some l, _ => flattenAunts heap fuel heap[spn]!.Parent (innerHashes ++ [heap[l]!.Hash])
      | none, some r => flattenAunts heap fuel heap[spn]!.Parent (innerHashes ++ [heap[r]!.Hash])
      | none, none => innerHashes

/-- `spn.FlattenAunts()`: a walk up a heap takes at most as many rounds as it has nodes. -/
def FlattenAunts (heap : List SimpleProofNode) (spn : Option Nat) : List Bytes :=
  flattenAunts heap heap.length spn []

/-- `SimpleProofsFromByteSlices(items)`: the root hash and a proof for each item. With no items
the root node is nil, and reading its hash panics. -/
def SimpleProofsFromByteSlices (items : List Bytes) : Result (Bytes × List SimpleProof) := do
  let (heap, trails, rootSPN) ← trailsFromByteSlices h [] items
  match rootSPN with
  | none => .panic "invalid memory address or nil pointer dereference"
  | some root =>
      let proofs := trails.mapIdx fun i trail =>
        ({ Total := items.length, Index := i, LeafHash := heap[trail]!.Hash
           Aunts := FlattenAunts heap (some trail) } : SimpleProof)
      pure (heap[root]!.Hash, proofs)

end Dgrid.Merkle
