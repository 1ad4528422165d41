import Mathlib.Data.List.Nodup
import Mathlib.Data.List.Pairwise

/-! Linked lists read through the sequence they hold. A doubly linked list is well linked when
each element's `next` is the element after it in the sequence and its `prev` the element
before; appending and erasing move those neighbours in the way stated here. A chain of `next`
pointers is the walk an iterator makes. Nothing here names the program. -/

namespace LinkedList

variable {α : Type} [DecidableEq α]

/-- The element after `a` in `xs`. -/
def nextIn : List α → α → Option α
  | [], _ => none
  | x :: xs, a => if x = a then xs.head? else nextIn xs a

/-- The element before `a` in `xs`. -/
def prevIn (xs : List α) (a : α) : Option α := nextIn xs.reverse a

@[simp] theorem nextIn_nil (a : α) : nextIn [] a = none := rfl

@[simp] theorem nextIn_cons_self (a : α) (xs : List α) : nextIn (a :: xs) a = xs.head? := by
  simp [nextIn]

theorem nextIn_cons_of_ne {x a : α} (h : x ≠ a) (xs : List α) :
    nextIn (x :: xs) a = nextIn xs a := by
  simp [nextIn, h]

theorem mem_of_nextIn_eq_some {xs : List α} {a b : α} (h : nextIn xs a = some b) :
    a ∈ xs ∧ b ∈ xs := by
  induction xs with
  | nil => simp at h
  | cons x xs ih =>
      by_cases hx : x = a
      · subst hx
        rw [nextIn_cons_self] at h
        exact ⟨List.mem_cons_self, List.mem_cons_of_mem _ (List.mem_of_mem_head? h)⟩
      · rw [nextIn_cons_of_ne hx] at h
        obtain ⟨ha, hb⟩ := ih h
        exact ⟨List.mem_cons_of_mem _ ha, List.mem_cons_of_mem _ hb⟩

theorem nextIn_of_not_mem {xs : List α} {a : α} (h : a ∉ xs) : nextIn xs a = none := by
  cases hn : nextIn xs a with
  | none => rfl
  | some b => exact absurd (mem_of_nextIn_eq_some hn).1 h

theorem nextIn_eq_none_iff {xs : List α} {a : α} (hxs : xs.Nodup) (ha : a ∈ xs) :
    nextIn xs a = none ↔ xs.getLast? = some a := by
  induction xs with
  | nil => simp at ha
  | cons x xs ih =>
      obtain ⟨hx, hxs⟩ := List.nodup_cons.mp hxs
      by_cases hxa : x = a
      · subst hxa
        have : xs.getLast? ≠ some x := fun h => hx (List.mem_of_getLast? h)
        cases xs with
        | nil => simp
        | cons y ys => simp_all
      · have ha' : a ∈ xs := (List.mem_cons.mp ha).resolve_left (Ne.symm hxa)
        have hne : xs ≠ [] := List.ne_nil_of_mem ha'
        rw [nextIn_cons_of_ne hxa, ih hxs ha', List.getLast?_cons]
        cases hl : xs.getLast? with
        | none => exact absurd (List.getLast?_eq_none_iff.mp hl) hne
        | some c => simp

theorem nextIn_append_singleton {xs : List α} (hxs : xs.Nodup) (a b : α) :
    nextIn (xs ++ [b]) a = if xs.getLast? = some a then some b else nextIn xs a := by
  induction xs with
  | nil => by_cases hb : b = a <;> simp [nextIn, hb]
  | cons x xs ih =>
      obtain ⟨hx, hxs⟩ := List.nodup_cons.mp hxs
      by_cases hxa : x = a
      · subst hxa
        have : xs.getLast? ≠ some x := fun h => hx (List.mem_of_getLast? h)
        cases xs with
        | nil => simp
        | cons y ys => simp_all
      · rw [List.cons_append, nextIn_cons_of_ne hxa, nextIn_cons_of_ne hxa, ih hxs,
          List.getLast?_cons]
        cases xs with
        | nil => simp [hxa]
        | cons y ys => simp only [List.getLast?_cons, Option.getD_some]

theorem nextIn_append_of_not_mem {ys : List α} {a : α} (ha : a ∉ ys) (zs : List α) :
    nextIn (ys ++ zs) a = nextIn zs a := by
  induction ys with
  | nil => rfl
  | cons y ys ih =>
      simp only [List.mem_cons, not_or] at ha
      obtain ⟨hya, ha⟩ := ha
      rw [List.cons_append, nextIn_cons_of_ne (Ne.symm hya), ih ha]

theorem nextIn_of_suffix {xs zs : List α} (hxs : xs.Nodup) {a : α} (h : a :: zs <:+ xs) :
    nextIn xs a = zs.head? := by
  obtain ⟨ys, rfl⟩ := h
  have ha : a ∉ ys := fun ha => List.disjoint_of_nodup_append hxs ha List.mem_cons_self
  rw [nextIn_append_of_not_mem ha, nextIn_cons_self]

theorem nextIn_eq_some_iff {xs : List α} (hxs : xs.Nodup) {a b : α} :
    nextIn xs a = some b ↔ [a, b] <:+: xs := by
  induction xs with
  | nil => simp
  | cons x xs ih =>
      obtain ⟨hx, hxs⟩ := List.nodup_cons.mp hxs
      rw [List.infix_cons_iff, List.prefix_cons_iff]
      by_cases hxa : x = a
      · subst hxa
        have : ¬[x, b] <:+: xs := fun h => hx (h.subset List.mem_cons_self)
        cases xs with
        | nil => simp
        | cons y ys =>
            simp [this]
            exact eq_comm
      · rw [nextIn_cons_of_ne hxa, ih hxs]
        simp [Ne.symm hxa]

theorem nextIn_erase {xs : List α} (hxs : xs.Nodup) {a e : α} (hae : a ≠ e) :
    nextIn (xs.erase e) a = if nextIn xs a = some e then nextIn xs e else nextIn xs a := by
  induction xs with
  | nil => simp
  | cons x xs ih =>
      obtain ⟨hx, hxs⟩ := List.nodup_cons.mp hxs
      by_cases hxe : x = e
      · subst hxe
        have : nextIn xs a ≠ some x := fun h => hx (mem_of_nextIn_eq_some h).2
        simp [nextIn_cons_of_ne (Ne.symm hae), this]
      · rw [List.erase_cons_tail (by simp [hxe] : ¬(x == e) = true), nextIn_cons_of_ne hxe]
        by_cases hxa : x = a
        · subst hxa
          simp only [nextIn_cons_self]
          cases xs with
          | nil => simp
          | cons y ys =>
              by_cases hye : y = e
              · subst hye
                simp
              · simp [List.erase_cons_tail (by simp [hye] : ¬(y == e) = true), hye]
        · rw [nextIn_cons_of_ne hxa, nextIn_cons_of_ne hxa, ih hxs]

theorem head?_erase (xs : List α) (e : α) :
    (xs.erase e).head? = if xs.head? = some e then nextIn xs e else xs.head? := by
  cases xs with
  | nil => simp
  | cons x xs =>
      by_cases hxe : x = e
      · subst hxe
        simp
      · simp [List.erase_cons_tail (by simp [hxe] : ¬(x == e) = true), hxe]

/-! ### The element before -/

theorem reverse_erase {xs : List α} (hxs : xs.Nodup) (e : α) :
    (xs.erase e).reverse = xs.reverse.erase e := by
  rw [hxs.erase_eq_filter, (List.nodup_reverse.mpr hxs).erase_eq_filter, List.filter_reverse]

theorem prevIn_eq_some_iff {xs : List α} (hxs : xs.Nodup) {a b : α} :
    prevIn xs b = some a ↔ [a, b] <:+: xs := by
  rw [prevIn, nextIn_eq_some_iff (List.nodup_reverse.mpr hxs), ← List.reverse_infix,
    List.reverse_reverse]
  rfl

theorem prevIn_eq_none_iff {xs : List α} {a : α} (hxs : xs.Nodup) (ha : a ∈ xs) :
    prevIn xs a = none ↔ xs.head? = some a := by
  rw [prevIn, nextIn_eq_none_iff (List.nodup_reverse.mpr hxs) (List.mem_reverse.mpr ha),
    List.getLast?_reverse]

theorem prevIn_append_singleton_self (xs : List α) (b : α) :
    prevIn (xs ++ [b]) b = xs.getLast? := by
  simp [prevIn, List.head?_reverse]

theorem prevIn_append_singleton_of_ne (xs : List α) {a b : α} (h : b ≠ a) :
    prevIn (xs ++ [b]) a = prevIn xs a := by
  simp [prevIn, nextIn_cons_of_ne h]

theorem prevIn_erase {xs : List α} (hxs : xs.Nodup) {a e : α} (hae : a ≠ e) :
    prevIn (xs.erase e) a = if prevIn xs a = some e then prevIn xs e else prevIn xs a := by
  rw [prevIn, reverse_erase hxs, nextIn_erase (List.nodup_reverse.mpr hxs) hae]
  rfl

theorem getLast?_erase {xs : List α} (hxs : xs.Nodup) (e : α) :
    (xs.erase e).getLast? = if xs.getLast? = some e then prevIn xs e else xs.getLast? := by
  rw [← List.head?_reverse, reverse_erase hxs, head?_erase, List.head?_reverse]
  rfl

/-! ### Order -/

theorem rel_of_nextIn {R : α → α → Prop} {xs : List α} (hR : xs.Pairwise R) {a b : α}
    (h : nextIn xs a = some b) : R a b := by
  induction xs with
  | nil => simp at h
  | cons x xs ih =>
      obtain ⟨hx, hR⟩ := List.pairwise_cons.mp hR
      by_cases hxa : x = a
      · subst hxa
        rw [nextIn_cons_self] at h
        exact hx b (List.mem_of_mem_head? h)
      · rw [nextIn_cons_of_ne hxa] at h
        exact ih hR h

theorem rel_of_prevIn {R : α → α → Prop} {xs : List α} (hR : xs.Pairwise R) {a b : α}
    (h : prevIn xs a = some b) : R b a :=
  rel_of_nextIn (R := fun a b => R b a) (List.pairwise_reverse.mpr hR) h

/-! ### Chains of pointers -/

/-- Following `next` from `o` meets the elements of `xs` in order and then finds nothing. -/
inductive Chain (next : α → Option α) : Option α → List α → Prop
  | nil : Chain next none []
  | cons {a : α} {o : Option α} {xs : List α} :
      next a = o → Chain next o xs → Chain next (some a) (a :: xs)

theorem chain_of_nextIn {next : α → Option α} {xs : List α} (hxs : xs.Nodup)
    (h : ∀ a ∈ xs, next a = nextIn xs a) : Chain next xs.head? xs := by
  induction xs with
  | nil => exact .nil
  | cons x xs ih =>
      obtain ⟨hx, hxs⟩ := List.nodup_cons.mp hxs
      refine .cons (by simpa using h x List.mem_cons_self) (ih hxs fun a ha => ?_)
      rw [h a (List.mem_cons_of_mem _ ha), nextIn_cons_of_ne (fun hxa : x = a => hx (hxa ▸ ha))]

omit [DecidableEq α] in
theorem Chain.head {next : α → Option α} {o : Option α} {xs : List α} (h : Chain next o xs) :
    o = xs.head? := by
  cases h <;> rfl

omit [DecidableEq α] in
theorem Chain.pairwise {R : α → α → Prop} [IsTrans α R] {next : α → Option α}
    (hR : ∀ a b, next a = some b → R a b) {o : Option α} {xs : List α} (h : Chain next o xs) :
    xs.Pairwise R := by
  induction h with
  | nil => exact .nil
  | @cons a o xs hnext hchain ih =>
      refine List.pairwise_cons.mpr ⟨fun y hy => ?_, ih⟩
      cases xs with
      | nil => simp at hy
      | cons b ys =>
          have hab : R a b := hR a b (hnext.trans hchain.head)
          rcases List.mem_cons.mp hy with rfl | hy
          · exact hab
          · exact IsTrans.trans _ _ _ hab (List.rel_of_pairwise_cons ih hy)

theorem chain_exists {next : Nat → Option Nat} {N : Nat}
    (h : ∀ a b, next a = some b → a < b ∧ b < N) (o : Option Nat) : ∃ xs, Chain next o xs := by
  suffices ∀ k a, N - a ≤ k → ∃ xs, Chain next (some a) xs by
    cases o with
    | none => exact ⟨[], .nil⟩
    | some a => exact this _ a (Nat.le_refl _)
  intro k
  induction k with
  | zero =>
      intro a ha
      cases hn : next a with
      | none => exact ⟨[a], .cons hn .nil⟩
      | some b => have := h a b hn; omega
  | succ k ih =>
      intro a ha
      cases hn : next a with
      | none => exact ⟨[a], .cons hn .nil⟩
      | some b =>
          have hab := h a b hn
          obtain ⟨xs, hxs⟩ := ih b (by omega)
          exact ⟨a :: xs, .cons hn hxs⟩

end LinkedList
