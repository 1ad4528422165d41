import Dgrid.Go.Basic

/-! Go's `container/list`, as far as programs that keep a map into it use it: the elements in
order, each with the address a map can point at. Removing or moving an element that is not in
the list does nothing, since `container/list` first checks which list the element belongs to.
Nothing here names the program. -/

namespace Go

/-- A `container/list.List`: its elements in order with their addresses, and the next free
address. -/
structure GoList (α : Type) where
  elems : List (Nat × α)
  nextAddr : Nat
deriving DecidableEq, Repr

namespace GoList

variable {α : Type}

def New : GoList α := ⟨[], 0⟩

/-- `l.Init()`: the list is emptied; addresses are not reused. -/
def Init (l : GoList α) : GoList α := { l with elems := [] }

def Len (l : GoList α) : Nat := l.elems.length

/-- `l.Front()`: the first element and its value. -/
def Front (l : GoList α) : Option (Nat × α) := l.elems.head?

/-- `l.PushBack(v)`: the new element's address, and the list. -/
def PushBack (l : GoList α) (v : α) : Nat × GoList α :=
  (l.nextAddr, ⟨l.elems ++ [(l.nextAddr, v)], l.nextAddr + 1⟩)

def Remove (l : GoList α) (e : Nat) : GoList α := { l with elems := l.elems.filter (·.1 ≠ e) }

def MoveToBack (l : GoList α) (e : Nat) : GoList α :=
  match l.elems.find? (·.1 = e) with
  | some x => { l with elems := l.elems.filter (·.1 ≠ e) ++ [x] }
  | none => l

/-! ### Lists whose addresses are distinct -/

variable {l : List (Nat × α)} {e : Nat} {v : α}

theorem find?_addr (hnd : (l.map Prod.fst).Nodup) (h : (e, v) ∈ l) :
    l.find? (·.1 = e) = some (e, v) := by
  induction l with
  | nil => cases h
  | cons x xs ih =>
      rw [List.map_cons, List.nodup_cons] at hnd
      by_cases hx : x.1 = e
      · -- the head has the address `e`, so it is the element
        have : x = (e, v) := by
          rcases List.mem_cons.mp h with h | h
          · exact h.symm
          · exact absurd (hx ▸ List.mem_map_of_mem h) hnd.1
        simp [this]
      · have hxs : (e, v) ∈ xs := by
          rcases List.mem_cons.mp h with h | h
          · exact absurd (h ▸ rfl) hx
          · exact h
        simp [hx, ih hnd.2 hxs]

theorem map_snd_filter_addr [DecidableEq α] (hnd : (l.map Prod.fst).Nodup)
    (hv : (l.map Prod.snd).Nodup) (h : (e, v) ∈ l) :
    (l.filter (·.1 ≠ e)).map Prod.snd = (l.map Prod.snd).erase v := by
  induction l with
  | nil => cases h
  | cons x xs ih =>
      rw [List.map_cons, List.nodup_cons] at hnd hv
      rcases List.mem_cons.mp h with rfl | hxs
      · -- no other element has the address `e`
        have hkeep : xs.filter (·.1 ≠ e) = xs := List.filter_eq_self.mpr fun y hy => by
          have : y.1 ≠ e := fun hye => hnd.1 (by simpa [hye] using List.mem_map_of_mem (f := Prod.fst) hy)
          simpa using this
        rw [List.filter_cons_of_neg (by simp), hkeep, List.map_cons, List.erase_cons_head]
      · have hxe : x.1 ≠ e := fun hxe => hnd.1 (hxe ▸ List.mem_map_of_mem hxs)
        have hxv : x.2 ≠ v := fun hxv => hv.1 (hxv ▸ List.mem_map_of_mem hxs)
        rw [List.filter_cons_of_pos (by simpa using hxe)]
        simp only [List.map_cons]
        rw [List.erase_cons_tail (by simpa using hxv : ¬(x.2 == v) = true), ih hnd.2 hv.2 hxs]

end GoList

end Go
