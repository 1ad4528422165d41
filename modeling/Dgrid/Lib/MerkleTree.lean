import Mathlib.Logic.Function.Basic
import Mathlib.Data.List.Basic

/-! Binary hash trees over a list, cut in two by a split rule at every level: the root, the
aunts of a leaf (the roots of the sibling subtrees, from the leaf up), and the root rebuilt from
a leaf hash and its aunts consumed from the last. Rebuilding from the aunts gives the root; and a
rebuilt root that matches the tree's pins down the leaf and its position, unless two different
nodes hash alike. -/

namespace MerkleTree

/-- A split rule: a list of at least two is cut into two non-empty parts. -/
structure Splitter where
  split : Nat → Nat
  pos : ∀ n, 2 ≤ n → 1 ≤ split n
  lt : ∀ n, 2 ≤ n → split n < n

variable {α β : Type} [Inhabited α] (s : Splitter) (leaf : β → α) (node : α → α → α)

theorem Splitter.take_length {x y : β} {rest : List β} :
    ((x :: y :: rest).take (s.split (x :: y :: rest).length)).length =
      s.split (x :: y :: rest).length := by
  have := s.lt (x :: y :: rest).length (by simp)
  rw [List.length_take]
  omega

theorem Splitter.drop_length {x y : β} {rest : List β} :
    ((x :: y :: rest).drop (s.split (x :: y :: rest).length)).length =
      (x :: y :: rest).length - s.split (x :: y :: rest).length := List.length_drop ..

theorem Splitter.take_lt {x y : β} {rest : List β} :
    ((x :: y :: rest).take (s.split (x :: y :: rest).length)).length < (x :: y :: rest).length := by
  rw [s.take_length]
  exact s.lt _ (by simp)

theorem Splitter.drop_lt {x y : β} {rest : List β} :
    ((x :: y :: rest).drop (s.split (x :: y :: rest).length)).length < (x :: y :: rest).length := by
  have := s.pos (x :: y :: rest).length (by simp)
  have hlen : 2 ≤ (x :: y :: rest).length := by simp
  rw [s.drop_length]
  omega

/-- The root of the tree over `items`; no items give the default. -/
def root : List β → α
  | [] => default
  | [x] => leaf x
  | x :: y :: rest =>
      let k := s.split (x :: y :: rest).length
      node (root ((x :: y :: rest).take k)) (root ((x :: y :: rest).drop k))
termination_by items => items.length
decreasing_by
  · exact s.take_lt
  · exact s.drop_lt

/-- The aunts of position `i`: the roots of the sibling subtrees, from the leaf up. -/
def aunts : List β → Nat → List α
  | [], _ => []
  | [_], _ => []
  | x :: y :: rest, i =>
      let k := s.split (x :: y :: rest).length
      if i < k then aunts ((x :: y :: rest).take k) i ++ [root s leaf node ((x :: y :: rest).drop k)]
      else aunts ((x :: y :: rest).drop k) (i - k) ++ [root s leaf node ((x :: y :: rest).take k)]
termination_by items => items.length
decreasing_by
  · exact s.take_lt
  · exact s.drop_lt

/-- The root rebuilt from the hash `h` of leaf `i` of `n`, the aunts given last first: `none` for
a position out of range or for too few or too many aunts. -/
def rebuildRev : Nat → Nat → α → List α → Option α
  | i, n, h, [] => if i < n ∧ n = 1 then some h else none
  | i, n, h, a :: rest =>
      if n ≤ i ∨ n = 1 then none
      else
        let k := s.split n
        if i < k then (rebuildRev i k h rest).map (node · a)
        else (rebuildRev (i - k) (n - k) h rest).map (node a ·)

/-- The root rebuilt from the hash of leaf `i` of `n` and its aunts, consumed from the last. -/
def rebuild (i n : Nat) (h : α) (as : List α) : Option α := rebuildRev s node i n h as.reverse

/-- The pairs of children that computing the root hashes into nodes, each subtree's before its
parent's. -/
def nodes : List β → List (α × α)
  | [] => []
  | [_] => []
  | x :: y :: rest =>
      let k := s.split (x :: y :: rest).length
      nodes ((x :: y :: rest).take k) ++ nodes ((x :: y :: rest).drop k) ++
        [(root s leaf node ((x :: y :: rest).take k), root s leaf node ((x :: y :: rest).drop k))]
termination_by items => items.length
decreasing_by
  · exact s.take_lt
  · exact s.drop_lt

/-- The pairs of children that rebuilding from the hash `h` of leaf `i` of `n` hashes into
nodes, the aunts given last first: a subtree that rebuilds nothing is hashed with nothing. -/
def rebuildRevNodes : Nat → Nat → α → List α → List (α × α)
  | _, _, _, [] => []
  | i, n, h, a :: rest =>
      if n ≤ i ∨ n = 1 then []
      else
        let k := s.split n
        if i < k then rebuildRevNodes i k h rest ++ ((rebuildRev s node i k h rest).map (·, a)).toList
        else rebuildRevNodes (i - k) (n - k) h rest ++
          ((rebuildRev s node (i - k) (n - k) h rest).map (a, ·)).toList

theorem root_cons_cons (x y : β) (rest : List β) :
    root s leaf node (x :: y :: rest) =
      node (root s leaf node ((x :: y :: rest).take (s.split (x :: y :: rest).length)))
        (root s leaf node ((x :: y :: rest).drop (s.split (x :: y :: rest).length))) := by
  rw [root]

theorem nodes_cons_cons (x y : β) (rest : List β) :
    nodes s leaf node (x :: y :: rest) =
      nodes s leaf node ((x :: y :: rest).take (s.split (x :: y :: rest).length)) ++
        nodes s leaf node ((x :: y :: rest).drop (s.split (x :: y :: rest).length)) ++
        [(root s leaf node ((x :: y :: rest).take (s.split (x :: y :: rest).length)),
          root s leaf node ((x :: y :: rest).drop (s.split (x :: y :: rest).length)))] := by
  rw [nodes]

theorem aunts_cons_cons (x y : β) (rest : List β) (i : Nat) :
    aunts s leaf node (x :: y :: rest) i =
      if i < s.split (x :: y :: rest).length then
        aunts s leaf node ((x :: y :: rest).take (s.split (x :: y :: rest).length)) i ++
          [root s leaf node ((x :: y :: rest).drop (s.split (x :: y :: rest).length))]
      else
        aunts s leaf node ((x :: y :: rest).drop (s.split (x :: y :: rest).length))
            (i - s.split (x :: y :: rest).length) ++
          [root s leaf node ((x :: y :: rest).take (s.split (x :: y :: rest).length))] := by
  rw [aunts]

omit [Inhabited α] in
theorem rebuildRev_of_le {i n : Nat} (hn : n ≤ i) (h : α) :
    ∀ rev, rebuildRev s node i n h rev = none
  | [] => by
      rw [rebuildRev, if_neg (by omega)]
  | a :: rest => by
      rw [rebuildRev, if_pos (.inl hn)]

theorem aunts_length_lt (items : List β) (i : Nat) (hi : i < items.length) :
    (aunts s leaf node items i).length < items.length := by
  induction items, i using aunts.induct s with
  | case1 i => simp at hi
  | case2 x i => simp [aunts]
  | case3 x y rest i k hik ih =>
      simp only [k] at hik ih
      have hk := @Splitter.take_length _ s x y rest
      have := ih (by omega)
      rw [aunts_cons_cons, if_pos hik, List.length_append, List.length_singleton]
      have := @Splitter.take_lt _ s x y rest
      omega
  | case4 x y rest i k hik ih =>
      simp only [k] at hik ih
      have hk := @Splitter.drop_length _ s x y rest
      have := ih (by omega)
      rw [aunts_cons_cons, if_neg hik, List.length_append, List.length_singleton]
      have := s.pos (x :: y :: rest).length (by simp)
      omega

theorem rebuild_aunts (items : List β) (i : Nat) (hi : i < items.length) :
    rebuild s node i items.length (leaf items[i]) (aunts s leaf node items i) =
      some (root s leaf node items) := by
  induction items, i using aunts.induct s with
  | case1 i => simp at hi
  | case2 x i =>
      simp only [List.length_singleton, Nat.lt_one_iff] at hi
      subst hi
      simp [rebuild, rebuildRev, aunts, root]
  | case3 x y rest i k hik ih =>
      simp only [k] at hik ih
      have ih' := ih (by rw [s.take_length]; exact hik)
      simp only [s.take_length, List.getElem_take] at ih'
      -- the aunt added last is the right subtree's root; the left subtree rebuilds below it
      rw [aunts_cons_cons, if_pos hik, root_cons_cons, rebuild, List.reverse_append,
        List.reverse_singleton, List.singleton_append, rebuildRev,
        if_neg (by have := s.lt (x :: y :: rest).length (by simp); omega)]
      dsimp only
      rw [if_pos hik, ← rebuild, ih']
      rfl
  | case4 x y rest i k hik ih =>
      simp only [k] at hik ih
      have hi' : i - s.split (x :: y :: rest).length <
          ((x :: y :: rest).drop (s.split (x :: y :: rest).length)).length := by
        rw [s.drop_length]; omega
      have ih' := ih hi'
      simp only [s.drop_length, List.getElem_drop] at ih'
      simp only [Nat.add_sub_cancel' (Nat.le_of_not_lt hik)] at ih'
      rw [aunts_cons_cons, if_neg hik, root_cons_cons, rebuild, List.reverse_append,
        List.reverse_singleton, List.singleton_append, rebuildRev, if_neg (by simp at hi ⊢; omega)]
      dsimp only
      rw [if_neg hik, ← rebuild, ih']
      rfl

section Binding

variable {s leaf node} {Digest : α → Prop}

/-- Two nodes hashing alike from different children, the first pair among `hashed` and the
second among `computed`, one side of both being digests: what a rebuilt root that matches the
tree's without the right leaf has to exhibit. -/
def NodeCollision (node : α → α → α) (Digest : α → Prop) (hashed computed : List (α × α)) :
    Prop :=
  ∃ a b c d, (a, b) ∈ hashed ∧ (c, d) ∈ computed ∧ node a b = node c d ∧ (a ≠ c ∨ b ≠ d) ∧
    (Digest a ∧ Digest c ∨ Digest b ∧ Digest d)

omit [Inhabited α] in
theorem NodeCollision.mono {node : α → α → α} {hashed hashed' computed computed' : List (α × α)}
    (h : NodeCollision node Digest hashed computed) (hh : hashed ⊆ hashed')
    (hc : computed ⊆ computed') : NodeCollision node Digest hashed' computed' := by
  obtain ⟨a, b, c, d, hab, hcd, rest⟩ := h
  exact ⟨a, b, c, d, hh hab, hc hcd, rest⟩

theorem root_digest (hl : ∀ x, Digest (leaf x)) (hn : ∀ a b, Digest (node a b))
    (items : List β) (hne : items ≠ []) : Digest (root s leaf node items) := by
  match items with
  | [x] =>
      rw [root]
      exact hl x
  | x :: y :: rest =>
      rw [root_cons_cons]
      exact hn _ _

omit [Inhabited α] in
theorem rebuildRev_digest (hn : ∀ a b, Digest (node a b)) {h : α} (hh : Digest h) :
    ∀ (rev : List α) (i n : Nat) (r : α), rebuildRev s node i n h rev = some r → Digest r
  | [], i, n, r, hr => by
      simp only [rebuildRev] at hr
      split_ifs at hr
      cases hr
      exact hh
  | a :: rest, i, n, r, hr => by
      simp only [rebuildRev] at hr
      split_ifs at hr <;>
        · obtain ⟨b, -, rfl⟩ := Option.map_eq_some_iff.mp hr
          exact hn _ _

omit [Inhabited α] in
theorem rebuildRevNodes_cons_left {i n : Nat} {h a b : α} {rest : List α}
    (hin : ¬(n ≤ i ∨ n = 1)) (hik : i < s.split n) (hb : rebuildRev s node i (s.split n) h rest = some b) :
    rebuildRevNodes s node i n h (a :: rest) =
      rebuildRevNodes s node i (s.split n) h rest ++ [(b, a)] := by
  rw [rebuildRevNodes, if_neg hin]
  dsimp only
  rw [if_pos hik, hb]
  rfl

omit [Inhabited α] in
theorem rebuildRevNodes_cons_right {i n : Nat} {h a b : α} {rest : List α}
    (hin : ¬(n ≤ i ∨ n = 1)) (hik : ¬i < s.split n)
    (hb : rebuildRev s node (i - s.split n) (n - s.split n) h rest = some b) :
    rebuildRevNodes s node i n h (a :: rest) =
      rebuildRevNodes s node (i - s.split n) (n - s.split n) h rest ++ [(a, b)] := by
  rw [rebuildRevNodes, if_neg hin]
  dsimp only
  rw [if_neg hik, hb]
  rfl

/-- Binding: a digest and aunts that rebuild the root of the tree are the hash of the leaf at the
position given, unless a pair of children the rebuild hashes and a different pair the root's
computation hashes give the same node. -/
theorem rebuildRev_binding (hl : ∀ x, Digest (leaf x)) (hn : ∀ a b, Digest (node a b)) {h : α}
    (hh : Digest h) :
    ∀ (rev : List α) (items : List β) (i : Nat), items ≠ [] →
      rebuildRev s node i items.length h rev = some (root s leaf node items) →
      (∃ hi : i < items.length, h = leaf items[i]) ∨
        NodeCollision node Digest (rebuildRevNodes s node i items.length h rev)
          (nodes s leaf node items)
  | [], items, i, hne, hr => by
      rw [rebuildRev] at hr
      split_ifs at hr with hin
      obtain ⟨x, rfl⟩ := List.length_eq_one_iff.mp hin.2
      obtain rfl : i = 0 := by simpa using hin.1
      cases hr
      exact .inl ⟨by simp, by rw [root]; rfl⟩
  | a :: rest, items, i, hne, hr => by
      rw [rebuildRev] at hr
      split_ifs at hr with hin
      dsimp only at hr
      obtain ⟨x, y, rest', rfl⟩ : ∃ x y rest', items = x :: y :: rest' := by
        match items, hne, hin with
        | x :: y :: rest', _, _ => exact ⟨x, y, rest', rfl⟩
        | [_], _, hin => simp at hin
      have hk := s.lt (x :: y :: rest').length (by simp)
      have hk' := s.pos (x :: y :: rest').length (by simp)
      rw [nodes_cons_cons]
      split_ifs at hr with hik <;> obtain ⟨b, hbr, heq⟩ := Option.map_eq_some_iff.mp hr <;>
        rw [root_cons_cons] at heq
      · -- the rebuilt left subtree is a digest: it is the left subtree's root, or a collision
        rw [rebuildRevNodes_cons_left hin hik hbr]
        have hL : (x :: y :: rest').take (s.split (x :: y :: rest').length) ≠ [] :=
          List.ne_nil_of_length_pos (by rw [s.take_length]; omega)
        by_cases hsame : b = root s leaf node ((x :: y :: rest').take
            (s.split (x :: y :: rest').length)) ∧
          a = root s leaf node ((x :: y :: rest').drop (s.split (x :: y :: rest').length))
        · obtain ⟨rfl, -⟩ := hsame
          rcases rebuildRev_binding hl hn hh rest _ i hL (by rw [s.take_length]; exact hbr) with
            ⟨hi, hleaf⟩ | hcol
          · exact .inl ⟨Nat.lt_of_lt_of_le hi (List.length_take_le' _ _),
              by rw [hleaf, List.getElem_take]⟩
          · rw [s.take_length] at hcol
            exact .inr (hcol.mono (List.subset_append_left _ _)
              (List.Subset.trans (List.subset_append_left _ _) (List.subset_append_left _ _)))
        · rw [not_and_or] at hsame
          exact .inr ⟨_, _, _, _, by simp, by simp, heq, hsame,
            .inl ⟨rebuildRev_digest hn hh rest _ _ _ hbr, root_digest hl hn _ hL⟩⟩
      · -- the rebuilt right subtree is a digest: it is the right subtree's root, or a collision
        rw [rebuildRevNodes_cons_right hin hik hbr]
        have hR : (x :: y :: rest').drop (s.split (x :: y :: rest').length) ≠ [] :=
          List.ne_nil_of_length_pos (by rw [s.drop_length]; omega)
        by_cases hsame : a = root s leaf node ((x :: y :: rest').take
            (s.split (x :: y :: rest').length)) ∧
          b = root s leaf node ((x :: y :: rest').drop (s.split (x :: y :: rest').length))
        · obtain ⟨-, rfl⟩ := hsame
          rcases rebuildRev_binding hl hn hh rest _ _ hR (by rw [s.drop_length]; exact hbr) with
            ⟨hi, hleaf⟩ | hcol
          · refine .inl ⟨by rw [s.drop_length] at hi; omega, ?_⟩
            rw [hleaf]
            simp only [List.getElem_drop, Nat.add_sub_cancel' (Nat.le_of_not_lt hik)]
          · rw [s.drop_length] at hcol
            exact .inr (hcol.mono (List.subset_append_left _ _)
              (List.Subset.trans (List.subset_append_right _ _) (List.subset_append_left _ _)))
        · rw [not_and_or] at hsame
          exact .inr ⟨_, _, _, _, by simp, by simp, heq, hsame,
            .inr ⟨rebuildRev_digest hn hh rest _ _ _ hbr, root_digest hl hn _ hR⟩⟩

theorem rebuild_binding (hl : ∀ x, Digest (leaf x)) (hn : ∀ a b, Digest (node a b)) {h : α}
    (hh : Digest h) {as : List α} {items : List β} {i : Nat} (hne : items ≠ [])
    (hr : rebuild s node i items.length h as = some (root s leaf node items)) :
    (∃ hi : i < items.length, h = leaf items[i]) ∨
      NodeCollision node Digest (rebuildRevNodes s node i items.length h as.reverse)
        (nodes s leaf node items) :=
  rebuildRev_binding hl hn hh as.reverse items i hne hr

end Binding

end MerkleTree
