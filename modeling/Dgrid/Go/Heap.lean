import Dgrid.Go.Basic

/-! Slices that share backing arrays. A Go slice value is a header (array, length, capacity)
over a backing array on the heap: `append` writes into that array while the capacity allows and
moves to a fresh array otherwise, so two headers can see the same cells. Here the heap keeps
each backing array under its allocation number, and `Frozen` says that a header taken earlier
can no longer be written through the live one. Nothing here names the program. -/

namespace Go

/-- A slice header: the backing array's allocation number, the length and the capacity. -/
structure SliceHeader where
  arr : Nat
  len : Nat
  cap : Nat
deriving Repr, DecidableEq

/-- The backing arrays allocated so far, each as long as its capacity, and the next number. -/
structure Heap (α : Type) where
  arrays : Nat → List α
  next : Nat

/-- The runtime's capacity for an `append` past capacity: any rule leaving room for the new
length (Go's `growslice` doubles small slices and rounds up to a size class). -/
structure Growth where
  newCap : Nat → Nat → Nat
  need_le : ∀ cap need, need ≤ newCap cap need

/-- Doubling the capacity, or the new length if that is more: the runtime's rule for small
slices, before rounding to a size class. -/
def Growth.doubling : Growth := ⟨fun cap need => max (2 * cap) need, fun _ _ => le_max_right _ _⟩

theorem copy_of_length_le {α : Type} {dst src : List α} (hl : dst.length ≤ src.length) :
    copy dst src = src.take dst.length := by
  simp [copy, List.drop_eq_nil_of_le hl]

namespace Heap

variable {α : Type} (h : Heap α)

/-- What a header shows: the first `len` cells of its array. -/
def view (s : SliceHeader) : List α := (h.arrays s.arr).take s.len

/-- A header is backed by the heap: its array is allocated and as long as its capacity. -/
structure Backs (s : SliceHeader) : Prop where
  len_le : s.len ≤ s.cap
  arr_lt : s.arr < h.next
  length : (h.arrays s.arr).length = s.cap

/-- A fresh backing array holding `xs`. -/
def alloc (xs : List α) : Nat × Heap α :=
  (h.next, ⟨Function.update h.arrays h.next xs, h.next + 1⟩)

/-- The cells of array `a` become `xs`. -/
def setArray (a : Nat) (xs : List α) : Heap α :=
  { h with arrays := Function.update h.arrays a xs }

def make [Inhabited α] (len cap : Int) : Result (SliceHeader × Heap α) :=
  if len < 0 then .panic "runtime error: makeslice: len out of range"
  else if cap < len then .panic "runtime error: makeslice: cap out of range"
  else
    let (a, h') := h.alloc (List.replicate cap.toNat default)
    .ok (⟨a, len.toNat, cap.toNat⟩, h')

/-- `copy(dst, src)`: the first `min(len(dst), len(src))` cells of `dst` take those of `src`,
read before any is written. -/
def copy (dst src : SliceHeader) : Heap α :=
  h.setArray dst.arr (Go.copy (h.arrays dst.arr) ((h.view src).take dst.len))

def load [Inhabited α] (s : SliceHeader) (i : Int) : Result α := index (h.view s) i

def store (s : SliceHeader) (i : Int) (x : α) : Result (Heap α) :=
  if 0 ≤ i ∧ i < s.len then .ok (h.setArray s.arr ((h.arrays s.arr).set i.toNat x))
  else .panic "index out of range"

/-- `append(s, x)`: in place while there is capacity, otherwise into a fresh array with the
runtime's capacity. -/
def append [Inhabited α] (g : Growth) (s : SliceHeader) (x : α) : SliceHeader × Heap α :=
  if s.len < s.cap then (⟨s.arr, s.len + 1, s.cap⟩, h.setArray s.arr ((h.arrays s.arr).set s.len x))
  else
    let c := g.newCap s.cap (s.len + 1)
    let (a, h') := h.alloc (h.view s ++ x :: List.replicate (c - (s.len + 1)) default)
    (⟨a, s.len + 1, c⟩, h')

variable {h}

@[simp] theorem next_setArray (a : Nat) (xs : List α) : (h.setArray a xs).next = h.next := rfl

@[simp] theorem arrays_setArray (a : Nat) (xs : List α) :
    (h.setArray a xs).arrays = Function.update h.arrays a xs := rfl

@[simp] theorem alloc_fst (xs : List α) : (h.alloc xs).1 = h.next := rfl

@[simp] theorem next_alloc (xs : List α) : (h.alloc xs).2.next = h.next + 1 := rfl

@[simp] theorem arrays_alloc (xs : List α) :
    (h.alloc xs).2.arrays = Function.update h.arrays h.next xs := rfl

@[simp] theorem next_copy (dst src : SliceHeader) : (h.copy dst src).next = h.next := rfl

theorem Backs.length_view {s : SliceHeader} (hs : h.Backs s) : (h.view s).length = s.len := by
  simp [view, hs.length, hs.len_le]

theorem view_setArray_of_ne {s : SliceHeader} {a : Nat} (hne : s.arr ≠ a) (xs : List α) :
    (h.setArray a xs).view s = h.view s := by
  simp [view, Function.update_of_ne hne]

theorem view_set_of_le {s : SliceHeader} {i : Nat} (hi : s.len ≤ i) (x : α) :
    (h.setArray s.arr ((h.arrays s.arr).set i x)).view s = h.view s := by
  simp only [view, arrays_setArray, Function.update_self]
  exact List.take_set_of_le hi

theorem view_set_self {s : SliceHeader} (i : Nat) (x : α) :
    (h.setArray s.arr ((h.arrays s.arr).set i x)).view s = (h.view s).set i x := by
  simp [view, List.take_set]

theorem view_alloc_of_lt {s : SliceHeader} (hs : s.arr < h.next) (xs : List α) :
    (h.alloc xs).2.view s = h.view s := by
  simp [view, Function.update_of_ne (Nat.ne_of_lt hs)]

theorem view_copy_of_ne {s dst : SliceHeader} (hne : s.arr ≠ dst.arr) (src : SliceHeader) :
    (h.copy dst src).view s = h.view s :=
  view_setArray_of_ne hne _

theorem view_copy_of_le {dst src : SliceHeader} (hd : h.Backs dst)
    (hl : dst.len ≤ (h.view src).length) :
    (h.copy dst src).view dst = (h.view src).take dst.len := by
  set W := (h.view src).take dst.len
  have hlen : W.length = dst.len := by simp [W, hl]
  have hcap : dst.len ≤ (h.arrays dst.arr).length := hd.length ▸ hd.len_le
  change ((Function.update h.arrays dst.arr (Go.copy (h.arrays dst.arr) W)) dst.arr).take dst.len = W
  rw [Function.update_self, Go.copy, List.take_of_length_le (l := W) (by omega),
    List.take_append_of_le_length (by omega), List.take_of_length_le (l := W) (by omega)]

theorem Backs.setArray {s : SliceHeader} (hs : h.Backs s) {a : Nat} {xs : List α}
    (hl : xs.length = (h.arrays a).length) : (h.setArray a xs).Backs s := by
  refine ⟨hs.len_le, hs.arr_lt, ?_⟩
  by_cases he : s.arr = a
  · subst he
    simpa [hl] using hs.length
  · simpa [Function.update_of_ne he] using hs.length

theorem Backs.copy {s : SliceHeader} (hs : h.Backs s) (dst src : SliceHeader) :
    (h.copy dst src).Backs s :=
  hs.setArray (length_copy _ _)

theorem Backs.set {s : SliceHeader} (hs : h.Backs s) (a i : Nat) (x : α) :
    (h.setArray a ((h.arrays a).set i x)).Backs s :=
  hs.setArray (List.length_set ..)

theorem Backs.alloc {s : SliceHeader} (hs : h.Backs s) (xs : List α) : (h.alloc xs).2.Backs s :=
  ⟨hs.len_le, by simpa using Nat.lt_succ_of_lt hs.arr_lt, by simpa [Function.update_of_ne (Nat.ne_of_lt hs.arr_lt)] using hs.length⟩

theorem store_of_lt {s : SliceHeader} {i : Nat} (hi : i < s.len) (x : α) :
    h.store s i x = .ok (h.setArray s.arr ((h.arrays s.arr).set i x)) := by
  simp [store, hi]

variable [Inhabited α]

theorem make_of_le {n c : Nat} (hc : n ≤ c) :
    h.make n c = .ok (⟨h.next, n, c⟩, (h.alloc (List.replicate c default)).2) := by
  have h₁ : ¬ ((n : Int) < 0) := by omega
  have h₂ : ¬ ((c : Int) < n) := by omega
  simp [make, h₁, h₂]

theorem backs_make {n c : Nat} (hc : n ≤ c) :
    (h.alloc (List.replicate c (default : α))).2.Backs ⟨h.next, n, c⟩ :=
  ⟨hc, by simp, by simp⟩

theorem view_make {n c : Nat} (hc : n ≤ c) :
    (h.alloc (List.replicate c (default : α))).2.view ⟨h.next, n, c⟩ = List.replicate n default := by
  simp [view, List.take_replicate, Nat.min_eq_left hc]

theorem load_of_getElem? {s : SliceHeader} {i : Nat} {x : α} (hx : (h.view s)[i]? = some x) :
    h.load s i = .ok x := by
  obtain ⟨hi, rfl⟩ := List.getElem?_eq_some_iff.mp hx
  exact index_of_lt hi

@[simp] theorem len_append (g : Growth) (s : SliceHeader) (x : α) :
    (h.append g s x).1.len = s.len + 1 := by
  unfold append
  split <;> rfl

theorem append_spec (g : Growth) {s : SliceHeader} (hs : h.Backs s) (x : α) :
    (h.append g s x).2.view (h.append g s x).1 = h.view s ++ [x] ∧
      (h.append g s x).2.Backs (h.append g s x).1 := by
  unfold append
  split
  case isTrue hlt =>
    refine ⟨?_, ⟨hlt, hs.arr_lt, by simpa using hs.length⟩⟩
    have hlen : s.len < (h.arrays s.arr).length := hs.length ▸ hlt
    simp only [view, arrays_setArray, Function.update_self]
    rw [List.take_set, List.take_add_one, List.getElem?_eq_getElem hlen, Option.toList_some,
      List.set_append_right _ _ (by simp)]
    simp [Nat.min_eq_left hlen.le]
  case isFalse hge =>
    have hneed := g.need_le s.cap (s.len + 1)
    refine ⟨?_, ⟨hneed, by simp, ?_⟩⟩
    · simp [view, List.take_append, hs.length, hs.len_le]
    · simp [hs.length_view]
      omega

/-! ### Headers taken earlier -/

variable {α : Type} {h : Heap α}

/-- A header `t` handed out earlier, seen from the live header `s`: its array is allocated, and
if it is `s`'s array then `t` ends where `s` ends or before, so what `s` appends lies past it. -/
structure Frozen (h : Heap α) (s t : SliceHeader) : Prop where
  arr_lt : t.arr < h.next
  len_le : t.arr = s.arr → t.len ≤ s.len

theorem Backs.frozen {s : SliceHeader} (hs : h.Backs s) : h.Frozen s s :=
  ⟨hs.arr_lt, fun _ => le_rfl⟩

theorem Frozen.of_lt {h' : Heap α} {s t : SliceHeader} (ht : t.arr < h.next)
    (hs : h.next ≤ s.arr) (hn : h.next ≤ h'.next) : h'.Frozen s t :=
  ⟨Nat.lt_of_lt_of_le ht hn, fun e => absurd (e ▸ ht) (Nat.not_lt.mpr hs)⟩

/-- A step from heap `h` with live header `s` to `h'` with live header `s'` keeps every header
handed out before it: each shows the same cells and stays frozen. -/
def Keeps (h : Heap α) (s : SliceHeader) (h' : Heap α) (s' : SliceHeader) : Prop :=
  ∀ t, h.Frozen s t → h'.view t = h.view t ∧ h'.Frozen s' t

theorem Keeps.refl (s : SliceHeader) : Keeps h s h s := fun _ ht => ⟨rfl, ht⟩

theorem Keeps.trans {h₂ h₃ : Heap α} {s s₂ s₃ : SliceHeader} (k₁ : Keeps h s h₂ s₂)
    (k₂ : Keeps h₂ s₂ h₃ s₃) : Keeps h s h₃ s₃ := by
  intro t ht
  obtain ⟨hv₁, hf₁⟩ := k₁ t ht
  obtain ⟨hv₂, hf₂⟩ := k₂ t hf₁
  exact ⟨hv₂.trans hv₁, hf₂⟩

theorem keeps_of_fresh {h' : Heap α} {s s' : SliceHeader} (hs : h.next ≤ s'.arr)
    (hn : h.next ≤ h'.next) (hv : ∀ t : SliceHeader, t.arr < h.next → h'.view t = h.view t) :
    Keeps h s h' s' :=
  fun t ht => ⟨hv t ht.arr_lt, Frozen.of_lt ht.arr_lt hs hn⟩

variable [Inhabited α]

theorem view_append_of_frozen (g : Growth) {s t : SliceHeader} (ht : h.Frozen s t) (x : α) :
    (h.append g s x).2.view t = h.view t := by
  unfold append
  split
  · by_cases he : t.arr = s.arr
    · have hle := ht.len_le he
      rw [← he]
      exact view_set_of_le hle x
    · exact view_setArray_of_ne he _
  · exact view_alloc_of_lt ht.arr_lt _

theorem Frozen.append (g : Growth) {s t : SliceHeader} (ht : h.Frozen s t) (x : α) :
    (h.append g s x).2.Frozen (h.append g s x).1 t := by
  unfold Heap.append
  split
  · exact ⟨ht.arr_lt, fun e => Nat.le_succ_of_le (ht.len_le e)⟩
  · exact Frozen.of_lt ht.arr_lt le_rfl (Nat.le_succ _)

theorem keeps_append (g : Growth) (s : SliceHeader) (x : α) :
    Keeps h s (h.append g s x).2 (h.append g s x).1 :=
  fun _ ht => ⟨view_append_of_frozen g ht x, ht.append g x⟩

end Heap

end Go
