import Dgrid.Go.Basic

/-! Go's `sort` package: `sort.Search` is a binary search for the first index at which a
predicate holds, and `sort.Sort` orders a slice by its `Less`. -/

namespace Go

/-- The loop of `sort.Search` on the window `[i, j)`: probe the midpoint, keep the half
where the first true index must lie. -/
def searchLoop (f : Nat → Bool) (i j : Nat) : Nat :=
  if i < j then
    if !f ((i + j) / 2) then searchLoop f ((i + j) / 2 + 1) j else searchLoop f i ((i + j) / 2)
  else i
termination_by j - i

def search (n : Nat) (f : Nat → Bool) : Nat := searchLoop f 0 n

/-- The precondition of `sort.Search`: on `[0, n)` the predicate is false then true. -/
def Monotone (n : Nat) (f : Nat → Bool) : Prop :=
  ∀ a b, a ≤ b → b < n → f a = true → f b = true

/-- The loop invariant: below `i` the predicate fails, at `j` (when in range) it holds. -/
def SearchInv (n : Nat) (f : Nat → Bool) (i j : Nat) : Prop :=
  i ≤ j ∧ j ≤ n ∧ (∀ k, k < i → f k = false) ∧ (j < n → f j = true)

theorem searchLoop_spec {n : Nat} {f : Nat → Bool} (hf : Monotone n f) {i j : Nat}
    (h : SearchInv n f i j) : SearchInv n f (searchLoop f i j) (searchLoop f i j) := by
  fun_induction searchLoop f i j with
  | case1 i j hij hm ih =>
      -- the midpoint fails, so everything up to it fails by monotonicity
      obtain ⟨_, hjn, hbelow, hat⟩ := h
      refine ih ⟨by omega, hjn, fun k hk => ?_, hat⟩
      rcases Nat.lt_succ_iff_lt_or_eq.mp hk with hk | rfl
      · cases hfk : f k with
        | false => rfl
        | true => simp [hf k ((i + j) / 2) (by omega) (by omega) hfk] at hm
      · simpa using hm
  | case2 i j hij hm ih =>
      obtain ⟨_, hjn, hbelow, _⟩ := h
      exact ih ⟨by omega, by omega, hbelow, fun _ => by simpa using hm⟩
  | case3 i j hij =>
      obtain ⟨hle, hjn, hbelow, hat⟩ := h
      obtain rfl : i = j := by omega
      exact ⟨le_refl _, hjn, hbelow, hat⟩

theorem search_spec {n : Nat} {f : Nat → Bool} (hf : Monotone n f) :
    search n f ≤ n ∧ (∀ k, k < search n f → f k = false) ∧
      (search n f < n → f (search n f) = true) := by
  obtain ⟨_, hn, hbelow, hat⟩ :=
    searchLoop_spec hf (i := 0) (j := n) ⟨Nat.zero_le n, le_refl n, by simp, by simp⟩
  exact ⟨hn, hbelow, hat⟩

/-- `sort.Sort(data)` with the order `less`. Go promises a sorted permutation and no
stability; the model sorts stably, which is one of the orders Go may produce. -/
def sortSort {α : Type} (less : α → α → Bool) (l : List α) : List α :=
  l.mergeSort (fun a b => !less b a)

theorem sortSort_of_pairwise {α : Type} {less : α → α → Bool} {l : List α}
    (h : l.Pairwise fun a b => !less b a) : sortSort less l = l :=
  List.mergeSort_of_pairwise h

theorem sortSort_perm {α : Type} (less : α → α → Bool) (l : List α) :
    (sortSort less l).Perm l :=
  List.mergeSort_perm l _

theorem sortSort_pairwise {α : Type} {less : α → α → Bool}
    (irrefl : ∀ a, less a a = false)
    (trans : ∀ a b c, less a b = true → less b c = true → less a c = true)
    (total : ∀ a b, less a b = false → less b a = false → ∀ c, less c a = less c b)
    (l : List α) : (sortSort less l).Pairwise (fun a b => less b a = false) := by
  have h := @List.pairwise_mergeSort _ (fun a b => !less b a) ?_ ?_ l
  · exact h.imp (fun hab => by simpa using hab)
  · intro a b c hab hbc
    simp only [Bool.not_eq_eq_eq_not, Bool.not_true] at hab hbc ⊢
    cases hca : less c a with
    | false => rfl
    | true =>
        cases hba : less b a with
        | true => simp [hba] at hab
        | false =>
            have := total a b (by
              cases h' : less a b with
              | false => rfl
              | true => simp [trans c a b hca h'] at hbc) hba c
            simp [← this, hca] at hbc
  · intro a b
    cases hab : less a b with
    | false => simp
    | true =>
        cases hba : less b a with
        | false => simp
        | true => exact absurd (trans a b a hab hba) (by simp [irrefl a])

end Go
