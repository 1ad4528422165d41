import Mathlib.Data.List.Nodup

/-! A set of bounded size that forgets its least recently used element: its elements in the
order they were last touched, the least recent first. Touching an element present moves it to
the recent end; touching a new one adds it there, after dropping the least recent element if the
set is full. -/

namespace LRU

variable {α : Type} [DecidableEq α]

/-- Touch `a` in the set `xs` of capacity `cap`: whether `a` was new, and the set after. -/
def push (cap : Nat) (xs : List α) (a : α) : Bool × List α :=
  if a ∈ xs then (false, xs.erase a ++ [a])
  else if cap ≤ xs.length then (true, xs.tail ++ [a])
  else (true, xs ++ [a])

/-- Forget `a`. -/
def remove (xs : List α) (a : α) : List α := xs.erase a

variable {cap : Nat} {xs : List α} {a : α}

theorem push_fst : (push cap xs a).1 = decide (a ∉ xs) := by
  unfold push
  split_ifs with h₁ h₂ <;> simp [h₁]

theorem push_of_full (ha : a ∉ xs) (hfull : cap ≤ xs.length) :
    (push cap xs a).2 = xs.tail ++ [a] := by
  simp [push, ha, hfull]

theorem push_nodup (h : xs.Nodup) : (push cap xs a).2.Nodup := by
  unfold push
  split_ifs with h₁ h₂
  · exact (h.erase a).append (List.nodup_singleton a)
      (by simpa using fun h' => (List.Nodup.not_mem_erase h) h')
  · exact h.tail.append (List.nodup_singleton a)
      (by simpa using fun h' => h₁ (List.mem_of_mem_tail h'))
  · exact h.append (List.nodup_singleton a) (by simpa using h₁)

theorem push_length_le (hcap : 1 ≤ cap) (h : xs.length ≤ cap) : (push cap xs a).2.length ≤ cap := by
  unfold push
  split_ifs with h₁ h₂
  · rw [List.length_append, List.length_erase_of_mem h₁, List.length_singleton]
    have := List.length_pos_of_mem h₁
    omega
  · simp only [List.length_append, List.length_tail, List.length_singleton]
    omega
  · simp only [List.length_append, List.length_singleton]
    omega

theorem remove_nodup (h : xs.Nodup) : (remove xs a).Nodup := h.erase a

theorem remove_length_le : (remove xs a).length ≤ xs.length := List.length_erase_le

end LRU
