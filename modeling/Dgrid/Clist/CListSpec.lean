import Dgrid.Lib.LinkedList
import Dgrid.Lib.Transition
import Dgrid.Clist.CList

/-! The list the pointers of a `CList` hold. The live elements, in allocation order, are
linked forwards from `head` to `tail` and backwards, `len` counts them, and every `next`
pointer, a removed element's included, goes to a later element. `PushBack` appends to the
live elements and `Remove` erases one, so this holds along every run; an iterator therefore
walks the live elements in order, and one holding a removed element goes on at a later
element and ends. -/

namespace Dgrid.Clist
open Go LinkedList

namespace CList

variable {α : Type}

/-- Whether `e` points to an element not yet removed. -/
def isLive (l : CList α) (e : Nat) : Bool := (l.elems[e]?.map fun c => !c.removed).getD false

/-- The live elements, in the order they were allocated. -/
def live (l : CList α) : List Nat := (List.range l.elems.length).filter l.isLive

/-- The `next` pointer of `e`. -/
def nextOf (l : CList α) (e : Nat) : Option Nat := l.elems[e]?.bind (·.next)

/-- The `prev` pointer of `e`. -/
def prevOf (l : CList α) (e : Nat) : Option Nat := l.elems[e]?.bind (·.prev)

/-- The value of `e`. -/
def valueOf (l : CList α) (e : Nat) : Option α := l.elems[e]?.map (·.Value)

/-! ### Writes through a pointer -/

section Modify

variable (l : CList α) (e : Nat) (f : CElement α → CElement α)

theorem getElem?_modify (x : Nat) :
    (l.modify e f).elems[x]? = if e = x then l.elems[x]?.map f else l.elems[x]? := by
  simp only [modify, List.getElem?_modify]
  split_ifs <;> cases l.elems[x]? <;> rfl

@[simp] theorem length_modify : (l.modify e f).elems.length = l.elems.length :=
  List.length_modify _ _ _

variable {l e f}

theorem isLive_modify (h : ∀ c, (f c).removed = c.removed) : (l.modify e f).isLive = l.isLive := by
  funext x
  simp only [isLive, getElem?_modify]
  split_ifs <;> cases l.elems[x]? <;> simp [h]

theorem nextOf_modify (h : ∀ c, (f c).next = c.next) : (l.modify e f).nextOf = l.nextOf := by
  funext x
  simp only [nextOf, getElem?_modify]
  split_ifs <;> cases l.elems[x]? <;> simp [h]

theorem prevOf_modify (h : ∀ c, (f c).prev = c.prev) : (l.modify e f).prevOf = l.prevOf := by
  funext x
  simp only [prevOf, getElem?_modify]
  split_ifs <;> cases l.elems[x]? <;> simp [h]

theorem valueOf_modify (h : ∀ c, (f c).Value = c.Value) : (l.modify e f).valueOf = l.valueOf := by
  funext x
  simp only [valueOf, getElem?_modify]
  split_ifs <;> cases l.elems[x]? <;> simp [h]

end Modify

section Setters

variable {l : CList α} {e : Nat}

@[simp] theorem isLive_SetNext (n : Option Nat) : (l.SetNext e n).isLive = l.isLive :=
  isLive_modify fun _ => rfl

@[simp] theorem prevOf_SetNext (n : Option Nat) : (l.SetNext e n).prevOf = l.prevOf :=
  prevOf_modify fun _ => rfl

@[simp] theorem valueOf_SetNext (n : Option Nat) : (l.SetNext e n).valueOf = l.valueOf :=
  valueOf_modify fun _ => rfl

@[simp] theorem isLive_SetPrev (n : Option Nat) : (l.SetPrev e n).isLive = l.isLive :=
  isLive_modify fun _ => rfl

@[simp] theorem nextOf_SetPrev (n : Option Nat) : (l.SetPrev e n).nextOf = l.nextOf :=
  nextOf_modify fun _ => rfl

@[simp] theorem valueOf_SetPrev (n : Option Nat) : (l.SetPrev e n).valueOf = l.valueOf :=
  valueOf_modify fun _ => rfl

@[simp] theorem nextOf_SetRemoved : (l.SetRemoved e).nextOf = l.nextOf :=
  nextOf_modify fun _ => rfl

@[simp] theorem prevOf_SetRemoved : (l.SetRemoved e).prevOf = l.prevOf :=
  prevOf_modify fun _ => rfl

@[simp] theorem valueOf_SetRemoved : (l.SetRemoved e).valueOf = l.valueOf :=
  valueOf_modify fun _ => rfl

theorem nextOf_SetNext (he : e < l.elems.length) (n : Option Nat) (x : Nat) :
    (l.SetNext e n).nextOf x = if x = e then n else l.nextOf x := by
  simp only [SetNext, nextOf, getElem?_modify]
  by_cases hx : x = e
  · subst hx
    simp [List.getElem?_eq_getElem he]
  · simp [Ne.symm hx, hx]

theorem prevOf_SetPrev (he : e < l.elems.length) (n : Option Nat) (x : Nat) :
    (l.SetPrev e n).prevOf x = if x = e then n else l.prevOf x := by
  simp only [SetPrev, prevOf, getElem?_modify]
  by_cases hx : x = e
  · subst hx
    simp [List.getElem?_eq_getElem he]
  · simp [Ne.symm hx, hx]

theorem isLive_SetRemoved (x : Nat) : (l.SetRemoved e).isLive x = (l.isLive x && x ≠ e) := by
  simp only [SetRemoved, isLive, getElem?_modify]
  by_cases hx : x = e
  · subst hx
    cases l.elems[x]? <;> simp
  · simp [Ne.symm hx, hx]

end Setters

/-! ### The live elements -/

section Live

variable {l : CList α}

theorem live_nodup (l : CList α) : l.live.Nodup := List.nodup_range.filter _

theorem live_pairwise (l : CList α) : l.live.Pairwise (· < ·) := List.pairwise_lt_range.filter _

theorem lt_of_isLive {e : Nat} (h : l.isLive e = true) : e < l.elems.length := by
  by_contra hn
  simp [isLive, List.getElem?_eq_none (Nat.le_of_not_lt hn)] at h

theorem mem_live {e : Nat} : e ∈ l.live ↔ l.isLive e = true := by
  simp only [live, List.mem_filter, List.mem_range, and_iff_right_iff_imp]
  exact lt_of_isLive

theorem lt_of_mem_live {e : Nat} (h : e ∈ l.live) : e < l.elems.length :=
  lt_of_isLive (mem_live.mp h)

theorem length_live_le (l : CList α) : l.live.length ≤ l.elems.length :=
  (List.length_filter_le _ _).trans_eq List.length_range

theorem live_congr {l' : CList α} (hlen : l'.elems.length = l.elems.length)
    (h : l'.isLive = l.isLive) : l'.live = l.live := by
  simp only [live, hlen, h]

theorem live_erase {l' : CList α} {e : Nat} (hlen : l'.elems.length = l.elems.length)
    (h : ∀ x, l'.isLive x = (l.isLive x && x ≠ e)) : l'.live = l.live.erase e := by
  rw [(live_nodup l).erase_eq_filter, live, live, List.filter_filter, hlen]
  refine List.filter_congr fun x _ => ?_
  rw [h]
  by_cases hx : x = e <;> simp [hx]

end Live

/-! ### The invariant -/

/-- The pointers of `l` link its live elements. -/
structure Inv (l : CList α) : Prop where
  head : l.head = l.live.head?
  tail : l.tail = l.live.getLast?
  len : l.len = l.live.length
  next : ∀ e ∈ l.live, l.nextOf e = nextIn l.live e
  prev : ∀ e ∈ l.live, l.prevOf e = prevIn l.live e
  forward : ∀ e f, l.nextOf e = some f → e < f ∧ f < l.elems.length
  maxLen : l.maxLen = MaxLength

theorem New_inv : (New : CList α).Inv where
  head := rfl
  tail := rfl
  len := rfl
  next := by simp [live, New]
  prev := by simp [live, New]
  forward := by simp [nextOf, New]
  maxLen := rfl

@[simp] theorem New_live : (New : CList α).live = [] := rfl

theorem nextOf_of_le {l : CList α} {x : Nat} (hx : l.elems.length ≤ x) : l.nextOf x = none := by
  simp [nextOf, List.getElem?_eq_none hx]

/-- Every removed element has had its `prev` pointer cleared, as `DetachPrev` does after each
`Remove` of the mempool. -/
def Detached (l : CList α) : Prop := ∀ e, l.isLive e = false → l.prevOf e = none

theorem New_detached : (New : CList α).Detached := fun _ _ => by simp [prevOf, New]

/-! ### `PushBack` -/

section PushBack

variable {l l' : CList α} {v : α} {e : Nat}

theorem getElem?_append_elem {c : CElement α} (x : Nat) :
    (l.elems ++ [c])[x]? = if x = l.elems.length then some c else l.elems[x]? := by
  rcases Nat.lt_trichotomy x l.elems.length with hx | rfl | hx
  · rw [List.getElem?_append_left hx, if_neg hx.ne]
  · simp
  · rw [List.getElem?_append_right hx.le, if_neg hx.ne', List.getElem?_eq_none (by simp; omega),
      List.getElem?_eq_none (by omega)]

theorem PushBack_spec (hl : l.Inv) (h : l.PushBack v = .ok (e, l')) :
    l.len < l.maxLen ∧ e = l.elems.length ∧ l'.elems.length = e + 1 ∧
      l'.head = (if l.tail = none then some e else l.head) ∧ l'.tail = some e ∧ l'.len = l.len + 1 ∧
      l'.maxLen = l.maxLen ∧ (∀ x, l'.isLive x = (l.isLive x || x == e)) ∧
      (∀ x, l'.nextOf x = if l.tail = some x then some e else l.nextOf x) ∧
      (∀ x, l'.prevOf x = if x = e then l.tail else l.prevOf x) ∧
      (∀ x, l'.valueOf x = if x = e then some v else l.valueOf x) := by
  unfold PushBack at h
  split_ifs at h with hlen
  have hnone : l.elems[l.elems.length]? = none := List.getElem?_eq_none (Nat.le_refl _)
  cases ht : l.tail with
  | none =>
      simp only [ht, Result.ok.injEq, Prod.mk.injEq] at h
      obtain ⟨rfl, rfl⟩ := h
      refine ⟨by omega, rfl, by simp, rfl, rfl, rfl, rfl, fun x => ?_,
        fun x => ?_, fun x => ?_, fun x => ?_⟩ <;>
        by_cases hx : x = l.elems.length <;>
        simp [isLive, nextOf, prevOf, valueOf, getElem?_append_elem, hx]
  | some t =>
      have htl : t < l.elems.length := lt_of_mem_live (List.mem_of_getLast? (ht ▸ hl.tail).symm)
      simp only [ht, Result.ok.injEq, Prod.mk.injEq] at h
      obtain ⟨rfl, rfl⟩ := h
      refine ⟨by omega, rfl, by simp [SetNext, SetPrev], by simp [SetNext, SetPrev, modify], rfl,
        rfl, rfl, fun x => ?_, fun x => ?_, fun x => ?_, fun x => ?_⟩
      · change (CList.SetNext _ _ _).isLive x = _
        rw [isLive_SetNext, isLive_SetPrev]
        by_cases hx : x = l.elems.length <;> simp [isLive, getElem?_append_elem, hx]
      · change (CList.SetNext _ _ _).nextOf x = _
        rw [nextOf_SetNext _, nextOf_SetPrev]
        · by_cases hxt : x = t
          · subst hxt
            simp
          · by_cases hx : x = l.elems.length
            · subst hx
              simp [nextOf, hxt, Ne.symm hxt]
            · simp [nextOf, getElem?_append_elem, hx, hxt, Ne.symm hxt]
        · simp only [SetPrev, length_modify, List.length_append, List.length_singleton]
          omega
      · change (CList.SetNext _ _ _).prevOf x = _
        rw [prevOf_SetNext, prevOf_SetPrev (by simp)]
        by_cases hx : x = l.elems.length <;> simp [prevOf, getElem?_append_elem, hx]
      · change (CList.SetNext _ _ _).valueOf x = _
        rw [valueOf_SetNext, valueOf_SetPrev]
        by_cases hx : x = l.elems.length <;> simp [valueOf, getElem?_append_elem, hx]

theorem PushBack_live (hl : l.Inv) (h : l.PushBack v = .ok (e, l')) :
    l'.live = l.live ++ [e] := by
  obtain ⟨-, rfl, hlen, -, -, -, -, hlive, -⟩ := PushBack_spec hl h
  rw [live, hlen, List.range_succ, List.filter_append, live]
  congr 1
  · exact List.filter_congr fun x hx => by simp [hlive, (List.mem_range.mp hx).ne]
  · simp [hlive]

theorem PushBack_inv (hl : l.Inv) (h : l.PushBack v = .ok (e, l')) : l'.Inv := by
  have hlive := PushBack_live hl h
  obtain ⟨-, rfl, hlen, hhead, htail, hlen', hmax, -, hnext, hprev, -⟩ := PushBack_spec hl h
  have hnd := live_nodup l
  have he : l.elems.length ∉ l.live := fun h => Nat.lt_irrefl _ (lt_of_mem_live h)
  constructor
  · rw [hhead, hlive, hl.tail, hl.head]
    cases l.live <;> simp
  · simp [htail, hlive]
  · simp [hlen', hl.len, hlive]
  · intro x hx
    rw [hnext, hlive, nextIn_append_singleton hnd, ← hl.tail]
    split_ifs
    · rfl
    · rcases List.mem_append.mp (hlive ▸ hx) with hx | hx
      · exact hl.next x hx
      · obtain rfl := List.mem_singleton.mp hx
        rw [nextOf_of_le (Nat.le_refl _), nextIn_of_not_mem he]
  · intro x hx
    rw [hprev, hlive]
    split_ifs with hxe
    · rw [hxe, prevIn_append_singleton_self, hl.tail]
    · have hx : x ∈ l.live := by simpa [hlive, hxe] using hx
      rw [prevIn_append_singleton_of_ne _ (Ne.symm hxe), hl.prev x hx]
  · intro x f hf
    rw [hnext] at hf
    split_ifs at hf with ht
    · obtain rfl := Option.some.inj hf
      have : x ∈ l.live := List.mem_of_getLast? (hl.tail ▸ ht)
      exact ⟨lt_of_mem_live this, by omega⟩
    · have := hl.forward x f hf
      omega
  · rw [hmax, hl.maxLen]

theorem PushBack_detached (hl : l.Inv) (hd : l.Detached) (h : l.PushBack v = .ok (e, l')) :
    l'.Detached := by
  obtain ⟨-, -, -, -, -, -, -, hlive, -, hprev, -⟩ := PushBack_spec hl h
  intro x hx
  rw [hlive] at hx
  simp only [Bool.or_eq_false_iff, beq_eq_false_iff_ne] at hx
  rw [hprev, if_neg hx.2]
  exact hd x hx.1

end PushBack

/-! ### `Remove` -/

section Remove

variable {l : CList α} {e : Nat}

theorem Remove_spec (hl : l.Inv) (he : e ∈ l.live) :
    ∃ v l', l.Remove e = .ok (v, l') ∧ l.valueOf e = some v ∧
      l'.elems.length = l.elems.length ∧
      l'.head = (if prevIn l.live e = none then nextIn l.live e else l.head) ∧
      l'.tail = (if nextIn l.live e = none then prevIn l.live e else l.tail) ∧
      l'.len = l.len - 1 ∧ l'.maxLen = l.maxLen ∧
      (∀ x, l'.isLive x = (l.isLive x && x ≠ e)) ∧
      (∀ x, l'.nextOf x = if some x = prevIn l.live e then nextIn l.live e else l.nextOf x) ∧
      (∀ x, l'.prevOf x = if some x = nextIn l.live e then prevIn l.live e else l.prevOf x) ∧
      l'.valueOf = l.valueOf := by
  have hlt := lt_of_mem_live he
  have hget : l.elems[e]? = some l.elems[e] := List.getElem?_eq_getElem hlt
  have hprev : l.elems[e].prev = prevIn l.live e := by simpa [prevOf, hget] using hl.prev e he
  have hnext : l.elems[e].next = nextIn l.live e := by simpa [nextOf, hget] using hl.next e he
  have hne : l.live ≠ [] := List.ne_nil_of_mem he
  have h₁ : ¬(l.head = none ∨ l.tail = none) := by
    rw [hl.head, hl.tail]
    cases hxs : l.live <;> simp_all
  have h₂ : ¬(prevIn l.live e = none ∧ l.head ≠ some e) := by
    rw [prevIn_eq_none_iff (live_nodup l) he, hl.head]
    tauto
  have h₃ : ¬(nextIn l.live e = none ∧ l.tail ≠ some e) := by
    rw [nextIn_eq_none_iff (live_nodup l) he, hl.tail]
    tauto
  simp only [Remove, elem, hget, Result.ok_bind, hprev, hnext, if_neg h₁, if_neg h₂, if_neg h₃]
  refine ⟨_, _, rfl, by simp [valueOf, hget], ?_⟩
  have hpl : ∀ p, prevIn l.live e = some p → p < l.elems.length := fun p hp =>
    lt_of_mem_live ((prevIn_eq_some_iff (live_nodup l)).mp hp |>.subset (by simp))
  have hql : ∀ q, nextIn l.live e = some q → q < l.elems.length := fun q hq =>
    lt_of_mem_live ((nextIn_eq_some_iff (live_nodup l)).mp hq |>.subset (by simp))
  cases hp : prevIn l.live e with
  | none =>
      cases hq : nextIn l.live e with
      | none =>
          dsimp only
          refine ⟨by simp [SetRemoved], by simp [SetRemoved, modify], by simp [SetRemoved, modify],
            rfl, rfl, fun x => ?_, fun x => ?_, fun x => ?_, ?_⟩
          · rw [isLive_SetRemoved]; rfl
          · simp only [nextOf_SetRemoved, reduceCtorEq, if_false]; rfl
          · simp only [prevOf_SetRemoved, reduceCtorEq, if_false]; rfl
          · rw [valueOf_SetRemoved]; rfl
      | some q =>
          dsimp only
          refine ⟨by simp [SetRemoved, SetPrev], by simp [SetRemoved, SetPrev, modify],
            by simp [SetRemoved, SetPrev, modify], rfl, rfl, fun x => ?_, fun x => ?_, fun x => ?_, ?_⟩
          · rw [isLive_SetRemoved, isLive_SetPrev]; rfl
          · simp only [nextOf_SetRemoved, nextOf_SetPrev, reduceCtorEq, if_false]; rfl
          · rw [prevOf_SetRemoved, prevOf_SetPrev (by simpa using hql q hq)]
            simp only [Option.some.injEq]
            split_ifs <;> rfl
          · rw [valueOf_SetRemoved, valueOf_SetPrev]; rfl
  | some p =>
      cases hq : nextIn l.live e with
      | none =>
          dsimp only
          refine ⟨by simp [SetRemoved, SetNext], by simp [SetRemoved, SetNext, modify],
            by simp [SetRemoved, SetNext, modify], rfl, rfl, fun x => ?_, fun x => ?_, fun x => ?_, ?_⟩
          · rw [isLive_SetRemoved]
            change ((CList.SetNext _ p none).isLive x && _) = _
            rw [isLive_SetNext]
            rfl
          · rw [nextOf_SetRemoved]
            change (CList.SetNext _ p none).nextOf x = _
            rw [nextOf_SetNext (by simpa using hpl p hp)]
            simp only [Option.some.injEq]
            split_ifs <;> rfl
          · rw [prevOf_SetRemoved]
            change (CList.SetNext _ p none).prevOf x = _
            simp only [prevOf_SetNext, reduceCtorEq, if_false]
            rfl
          · rw [valueOf_SetRemoved]
            change (CList.SetNext _ p none).valueOf = _
            rw [valueOf_SetNext]
            rfl
      | some q =>
          dsimp only
          refine ⟨by simp [SetRemoved, SetNext, SetPrev], by simp [SetRemoved, SetNext, SetPrev, modify],
            by simp [SetRemoved, SetNext, SetPrev, modify], rfl, rfl, fun x => ?_, fun x => ?_,
            fun x => ?_, ?_⟩
          · rw [isLive_SetRemoved, isLive_SetPrev, isLive_SetNext]; rfl
          · rw [nextOf_SetRemoved, nextOf_SetPrev, nextOf_SetNext (by simpa using hpl p hp)]
            simp only [Option.some.injEq]
            split_ifs <;> rfl
          · rw [prevOf_SetRemoved, prevOf_SetPrev (by simpa [SetNext] using hql q hq), prevOf_SetNext]
            simp only [Option.some.injEq]
            split_ifs <;> rfl
          · rw [valueOf_SetRemoved, valueOf_SetPrev, valueOf_SetNext]; rfl

theorem Remove_inv (hl : l.Inv) (he : e ∈ l.live) {v : α} {l' : CList α}
    (h : l.Remove e = .ok (v, l')) :
    l'.Inv ∧ l'.live = l.live.erase e ∧ l'.nextOf e = l.nextOf e ∧ l'.valueOf = l.valueOf ∧
      l'.elems.length = l.elems.length ∧ l'.isLive e = false := by
  obtain ⟨v', l'', h', -, hlen, hhead, htail, hlen', hmax, hlive, hnext, hprev, hval⟩ :=
    Remove_spec hl he
  obtain ⟨-, rfl⟩ := Prod.mk.inj (Result.ok.inj (h.symm.trans h'))
  have hnd := live_nodup l
  have hsort := live_pairwise l
  have hlv := live_erase hlen hlive
  have hep : ∀ x, some x = prevIn l.live e → x < e := fun x hx => rel_of_prevIn hsort hx.symm
  refine ⟨⟨?_, ?_, ?_, fun x hx => ?_, fun x hx => ?_, fun x f hf => ?_, ?_⟩, hlv, ?_, hval, hlen,
    by simp [hlive]⟩
  · rw [hhead, hlv, head?_erase, hl.head]
    simp only [prevIn_eq_none_iff hnd he]
  · rw [htail, hlv, getLast?_erase hnd, hl.tail]
    simp only [nextIn_eq_none_iff hnd he]
  · rw [hlen', hlv, List.length_erase_of_mem he, hl.len]
    have := List.length_pos_of_mem he
    omega
  · rw [hlv] at hx ⊢
    obtain ⟨hxe, hx⟩ := (hnd.mem_erase_iff).mp hx
    rw [hnext, nextIn_erase hnd hxe, hl.next x hx]
    simp only [nextIn_eq_some_iff hnd, ← prevIn_eq_some_iff hnd, eq_comm]
  · rw [hlv] at hx ⊢
    obtain ⟨hxe, hx⟩ := (hnd.mem_erase_iff).mp hx
    rw [hprev, prevIn_erase hnd hxe, hl.prev x hx]
    simp only [prevIn_eq_some_iff hnd, ← nextIn_eq_some_iff hnd, eq_comm]
  · rw [hnext] at hf
    split_ifs at hf with hx
    · have hef := rel_of_nextIn hsort hf
      have hf' : f < l.elems.length :=
        lt_of_mem_live ((nextIn_eq_some_iff hnd).mp hf |>.subset (by simp))
      have := hep x hx
      omega
    · rw [hlen]
      exact hl.forward x f hf
  · rw [hmax, hl.maxLen]
  · rw [hnext, if_neg fun hx => Nat.lt_irrefl _ (hep e hx)]

end Remove

/-! ### `DetachPrev` -/

section DetachPrev

variable {l : CList α} {e : Nat}

theorem DetachPrev_inv (hl : l.Inv) (hlt : e < l.elems.length) (hd : l.isLive e = false) :
    ∃ l', l.DetachPrev e = .ok l' ∧ l'.Inv ∧ l'.live = l.live ∧ l'.nextOf = l.nextOf ∧
      l'.valueOf = l.valueOf ∧ l'.elems.length = l.elems.length ∧
      ∀ x, l'.prevOf x = if x = e then none else l.prevOf x := by
  have hget : l.elems[e]? = some l.elems[e] := List.getElem?_eq_getElem hlt
  have hrem : l.elems[e].removed = true := by simpa [isLive, hget] using hd
  have hlive : (l.modify e fun c => { c with prev := none }).isLive = l.isLive :=
    isLive_modify fun _ => rfl
  have hlv : (l.modify e fun c => { c with prev := none }).live = l.live :=
    live_congr (length_modify _ _ _) hlive
  have hnext : (l.modify e fun c => { c with prev := none }).nextOf = l.nextOf :=
    nextOf_modify fun _ => rfl
  refine ⟨_, by simp [DetachPrev, elem, hget, hrem], ⟨?_, ?_, ?_, ?_, fun x hx => ?_, ?_, ?_⟩, hlv,
    hnext, valueOf_modify fun _ => rfl, length_modify _ _ _, fun x => ?_⟩
  · rw [hlv]; exact hl.head
  · rw [hlv]; exact hl.tail
  · rw [hlv]; exact hl.len
  · rw [hlv, hnext]; exact hl.next
  · rw [hlv] at hx ⊢
    have hxe : x ≠ e := by
      rintro rfl
      rw [mem_live.mp hx] at hd
      cases hd
    simp only [prevOf, getElem?_modify, if_neg (Ne.symm hxe)]
    exact hl.prev x hx
  · rw [hnext, length_modify]; exact hl.forward
  · exact hl.maxLen
  · by_cases hxe : x = e
    · subst hxe
      simp [prevOf, getElem?_modify, hget]
    · simp only [prevOf, getElem?_modify, if_neg (Ne.symm hxe), if_neg hxe]

end DetachPrev

/-- What dropping the live element `e` leaves: a well-linked list without `e`, in which `e`
keeps its `next` pointer and every element its value. -/
structure Dropped (l l' : CList α) (e : Nat) : Prop where
  inv : l'.Inv
  live : l'.live = l.live.erase e
  nextOf : l'.nextOf e = l.nextOf e
  valueOf : l'.valueOf = l.valueOf
  length : l'.elems.length = l.elems.length
  detached : l.Detached → l'.Detached

theorem remove_detachPrev {l : CList α} {e : Nat} (hl : l.Inv) (he : e ∈ l.live) :
    ∃ v l₁ l', l.Remove e = .ok (v, l₁) ∧ l₁.DetachPrev e = .ok l' ∧ l.valueOf e = some v ∧
      Dropped l l' e := by
  obtain ⟨v, l₁, h₁, hv, -, -, -, -, -, -, -, hprev₁, -⟩ := Remove_spec hl he
  obtain ⟨hl₁, hlv₁, hnext₁, hval₁, hlen₁, hd₁⟩ := Remove_inv hl he h₁
  obtain ⟨l', h', hl', hlv', hnext', hval', hlen', hprev'⟩ :=
    DetachPrev_inv hl₁ (hlen₁ ▸ lt_of_mem_live he) hd₁
  refine ⟨v, l₁, l', h₁, h', hv, hl', hlv'.trans hlv₁, by rw [hnext', hnext₁],
    hval'.trans hval₁, hlen'.trans hlen₁, fun hdet x hx => ?_⟩
  rw [hprev']
  split_ifs with hxe
  · rfl
  -- a removed element other than `e` was removed before, so it is nobody's neighbour
  have hx' : x ∉ l.live := fun hxl => by
    have : x ∈ l'.live := by rw [hlv', hlv₁, (live_nodup l).mem_erase_iff]; exact ⟨hxe, hxl⟩
    rw [mem_live, hx] at this
    cases this
  have hq : some x ≠ nextIn l.live e := fun hq =>
    hx' (((nextIn_eq_some_iff (live_nodup l)).mp hq.symm).subset (by simp))
  rw [hprev₁, if_neg hq]
  exact hdet x (by simpa [mem_live] using hx')

theorem Dropped.of_eq {l l₁ l' : CList α} {e : Nat} {v : α} (hl : l.Inv) (he : e ∈ l.live)
    (h₁ : l.Remove e = .ok (v, l₁)) (h₂ : l₁.DetachPrev e = .ok l') :
    l.valueOf e = some v ∧ Dropped l l' e := by
  obtain ⟨v', l₁', l'', h₁', h₂', hv, hdrop⟩ := remove_detachPrev hl he
  obtain ⟨rfl, rfl⟩ := Prod.mk.inj (Result.ok.inj (h₁.symm.trans h₁'))
  obtain rfl := Result.ok.inj (h₂.symm.trans h₂')
  exact ⟨hv, hdrop⟩

theorem Remove_ne_ok_of_removed {l : CList α} {e : Nat} (hl : l.Inv) (hdet : l.Detached)
    (hd : l.isLive e = false) (v : α) (l' : CList α) : l.Remove e ≠ .ok (v, l') := by
  intro h
  cases hget : l.elems[e]? with
  | none => simp [Remove, elem, hget] at h
  | some c =>
      have hprev : c.prev = none := by simpa [prevOf, hget] using hdet e hd
      simp only [Remove, elem, hget, Result.ok_bind] at h
      split_ifs at h with h₁ h₂
      have hhead : l.head = some e := by simpa [hprev] using h₂
      have : e ∈ l.live := List.mem_of_mem_head? (hl.head ▸ hhead)
      rw [mem_live, hd] at this
      cases this

theorem Next_eq {l : CList α} {e : Nat} (he : e < l.elems.length) : l.Next e = .ok (l.nextOf e) := by
  simp [Next, elem, nextOf, List.getElem?_eq_getElem he]

theorem Value_eq {l : CList α} {e : Nat} (he : e < l.elems.length) :
    l.Value e = .ok l.elems[e].Value := by
  simp [Value, elem, List.getElem?_eq_getElem he]

theorem Value_of_mem_live {l : CList α} {e : Nat} (he : e ∈ l.live) :
    ∃ v, l.Value e = .ok v ∧ l.valueOf e = some v := by
  have hlt := lt_of_mem_live he
  exact ⟨_, Value_eq hlt, by simp [valueOf, List.getElem?_eq_getElem hlt]⟩

theorem nextOf_of_suffix {l : CList α} {e : Nat} {zs : List Nat} (hl : l.Inv)
    (h : e :: zs <:+ l.live) : l.nextOf e = zs.head? := by
  rw [hl.next e (h.subset List.mem_cons_self), nextIn_of_suffix (live_nodup _) h]

theorem Next_of_suffix {l : CList α} {e : Nat} {zs : List Nat} (hl : l.Inv)
    (h : e :: zs <:+ l.live) : l.Next e = .ok zs.head? := by
  rw [Next_eq (lt_of_mem_live (h.subset List.mem_cons_self)), nextOf_of_suffix hl h]

/-! ### The values held -/

/-- The values of the live elements, in order. -/
def values (l : CList α) : List α := l.live.filterMap l.valueOf

theorem length_values (l : CList α) : l.values.length = l.live.length :=
  List.filterMap_length_eq_length.mpr fun _ he => by
    obtain ⟨v, -, hv⟩ := Value_of_mem_live he
    simp [hv]

theorem PushBack_values {l l' : CList α} {v : α} {e : Nat} (hl : l.Inv)
    (h : l.PushBack v = .ok (e, l')) : l'.values = l.values ++ [v] := by
  have hlive := PushBack_live hl h
  obtain ⟨-, rfl, -, -, -, -, -, -, -, -, hval⟩ := PushBack_spec hl h
  rw [values, hlive, List.filterMap_append, values]
  congr 1
  · refine List.filterMap_congr fun x hx => ?_
    rw [hval, if_neg (lt_of_mem_live hx).ne]
  · simp [hval]

theorem values_perm_of_erase {l l' : CList α} {e : Nat} {v : α} (he : e ∈ l.live)
    (hv : l.valueOf e = some v) (hlv : l'.live = l.live.erase e) (hval : l'.valueOf = l.valueOf) :
    l.values.Perm (v :: l'.values) := by
  have := (List.perm_cons_erase he).filterMap l.valueOf
  rw [List.filterMap_cons, hv] at this
  rwa [values, values, hlv, hval]

theorem Dropped.values_subset {l l' : CList α} {e : Nat} (h : Dropped l l' e) {v : α}
    (hv : v ∈ l'.values) : v ∈ l.values := by
  obtain ⟨x, hx, hxv⟩ := List.mem_filterMap.mp hv
  rw [h.live] at hx
  rw [h.valueOf] at hxv
  exact List.mem_filterMap.mpr ⟨x, List.mem_of_mem_erase hx, hxv⟩

theorem valueOf_of_Value {l : CList α} {e : Nat} {v : α} (h : l.Value e = .ok v) :
    l.valueOf e = some v := by
  cases hget : l.elems[e]? with
  | none => simp [Value, elem, hget] at h
  | some c =>
      simp only [Value, elem, hget, Result.ok_bind, Result.pure_eq, Result.ok.injEq] at h
      simp [valueOf, hget, h]

/-! ### Runs -/

/-- The calls the mempool makes on its list: `PushBack`, and `Remove` of a live element
followed by `DetachPrev`. -/
inductive Step : CList α → CList α → Prop
  | pushBack {l l' : CList α} (v : α) (e : Nat) : l.PushBack v = .ok (e, l') → Step l l'
  | remove {l l₁ l' : CList α} (e : Nat) (v : α) : l.isLive e = true →
      l.Remove e = .ok (v, l₁) → l₁.DetachPrev e = .ok l' → Step l l'

/-- The lists a run from `New` reaches. -/
def Reachable (l : CList α) : Prop := Transition.Reachable (· = New) Step l

theorem Step.inv {l l' : CList α} (hl : l.Inv) : Step l l' → l'.Inv
  | .pushBack _ _ h => PushBack_inv hl h
  | .remove _ _ he h h' => by
      obtain ⟨hl₁, -, -, -, hlen, hd⟩ := Remove_inv hl (mem_live.mpr he) h
      obtain ⟨l'', h'', hl'', -⟩ := DetachPrev_inv hl₁ (hlen ▸ lt_of_isLive he) hd
      rwa [← Result.ok.inj (h'.symm.trans h'')] at hl''

theorem Reachable.inv {l : CList α} (h : l.Reachable) : l.Inv :=
  Transition.Reachable.invariant (by rintro _ rfl; exact New_inv) (fun _ _ _ hl hs => hs.inv hl) h

/-- What an iterator of a list sees. -/
structure Walks (l : CList α) : Prop where
  /-- From `Front()`, the `next` pointers meet the live elements in the order they were pushed,
  then `nil`. -/
  forward : Chain l.nextOf l.Front l.live
  back : l.live.getLast? = l.Back
  /-- From `Back()`, the `prev` pointers meet them in reverse, then `nil`. -/
  backward : Chain l.prevOf l.Back l.live.reverse
  len : l.Len = l.live.length
  /-- A removed element's `next` is `nil` or an element pushed after it. -/
  removed : ∀ e f, l.isLive e = false → l.nextOf e = some f → e < f ∧ f < l.elems.length
  /-- From any element, removed or not, an iterator moves on to later elements only, and ends. -/
  resume : ∀ e, ∃ xs, Chain l.nextOf (some e) xs ∧ xs.Pairwise (· < ·)

theorem Inv.walks {l : CList α} (hl : l.Inv) : l.Walks where
  forward := by
    rw [Front, hl.head]
    exact chain_of_nextIn (live_nodup l) hl.next
  back := hl.tail.symm
  backward := by
    rw [Back, hl.tail, ← List.head?_reverse]
    exact chain_of_nextIn (List.nodup_reverse.mpr (live_nodup l))
      fun a ha => hl.prev a (List.mem_reverse.mp ha)
  len := hl.len
  removed := fun e f _ hf => hl.forward e f hf
  resume := fun e => by
    obtain ⟨xs, hxs⟩ := chain_exists hl.forward (some e)
    exact ⟨xs, hxs, hxs.pairwise fun a b h => (hl.forward a b h).1⟩

theorem reachable_walks {l : CList α} (h : l.Reachable) : l.Walks := h.inv.walks

/-- Two pushes and the removal of the first: the second is the whole list, and the first still
points at it. -/
theorem reachable_walks_after_remove :
    let l : CList Nat :=
      ⟨[⟨none, some 1, true, 5⟩, ⟨none, none, false, 6⟩], some 1, some 1, 1, MaxLength⟩
    l.Reachable ∧ l.Walks := by
  intro l
  have h₁ : (⟨[⟨none, none, false, 5⟩], some 0, some 0, 1, MaxLength⟩ : CList Nat).Reachable :=
    .step (.init rfl) (.pushBack 5 0 (by decide))
  have h₂ : (⟨[⟨none, some 1, false, 5⟩, ⟨some 0, none, false, 6⟩], some 0, some 1, 2, MaxLength⟩ :
      CList Nat).Reachable :=
    .step h₁ (.pushBack 6 1 (by decide))
  have h : l.Reachable :=
    .step h₂ (@Step.remove _ _ l _ 0 5 (by decide) (by decide) (by decide))
  exact ⟨h, reachable_walks h⟩

/-! ### Loops over the list -/

section Loop

variable {σ : Type} (list : σ → CList α) (body : Nat → σ → Result σ)

/-- A loop body that, at a live element `e`, keeps the list well linked, keeps the live
elements after `e`, and leaves `e`'s next pointer for the loop to read: it drops `e` or leaves
the list alone. -/
def KeepsRest : Prop :=
  ∀ e zs s s', (list s).Inv → e :: zs <:+ (list s).live → body e s = .ok s' →
    (list s').Inv ∧ (list s').Next e = .ok ((list s).nextOf e) ∧ zs <:+ (list s').live

variable {list body}

theorem forEach_eq_foldlM (hb : KeepsRest list body) (xs : List Nat) :
    ∀ fuel s, (list s).Inv → xs <:+ (list s).live → xs.length ≤ fuel →
      forEach list body fuel xs.head? s = xs.foldlM (fun s e => body e s) s := by
  induction xs with
  | nil =>
      intro fuel s _ _ _
      cases fuel <;> rfl
  | cons e zs ih =>
      intro fuel s hl hsuf hfuel
      obtain ⟨fuel, rfl⟩ : ∃ f, fuel = f + 1 := ⟨fuel - 1, by simp at hfuel; omega⟩
      simp only [List.head?_cons, forEach, List.foldlM_cons]
      cases hs : body e s with
      | panic m => rfl
      | ok s' =>
          obtain ⟨hl', hnext, hsuf'⟩ := hb e zs s s' hl hsuf hs
          simp only [Result.ok_bind, hnext, nextOf_of_suffix hl hsuf]
          exact ih fuel s' hl' hsuf' (by simp at hfuel; omega)

theorem keepsRest_of
    (h : ∀ e s s', (list s).Inv → e ∈ (list s).live → body e s = .ok s' →
      list s' = list s ∨ ∃ v l₁, (list s).Remove e = .ok (v, l₁) ∧ l₁.DetachPrev e = .ok (list s')) :
    KeepsRest list body := by
  intro e zs s s' hl hsuf hs
  have he : e ∈ (list s).live := hsuf.subset List.mem_cons_self
  rcases h e s s' hl he hs with heq | ⟨v, l₁, h₁, h₂⟩
  · rw [heq]
    exact ⟨hl, Next_eq (lt_of_mem_live he), (List.suffix_cons _ _).trans hsuf⟩
  · obtain ⟨-, hdrop⟩ := Dropped.of_eq hl he h₁ h₂
    refine ⟨hdrop.inv, by rw [Next_eq (hdrop.length ▸ lt_of_mem_live he), hdrop.nextOf], ?_⟩
    obtain ⟨ys, hys⟩ := hsuf
    have hey : e ∉ ys := fun hy =>
      List.disjoint_of_nodup_append (hys ▸ live_nodup (list s)) hy List.mem_cons_self
    rw [hdrop.live, ← hys, List.erase_append_right _ hey, List.erase_cons_head]
    exact List.suffix_append _ _

theorem forEach_front (hb : KeepsRest list body) {s : σ} (hl : (list s).Inv) :
    forEach list body (list s).elems.length (list s).Front s =
      (list s).live.foldlM (fun s e => body e s) s := by
  rw [Front, hl.head]
  exact forEach_eq_foldlM hb _ _ s hl List.suffix_rfl (length_live_le _)

theorem foldlM_drop_live {body : Nat → CList α → Result (CList α)}
    (hb : ∀ e l l', body e l = .ok l' →
      ∃ v l₁, l.Remove e = .ok (v, l₁) ∧ l₁.DetachPrev e = .ok l') :
    ∀ xs (l l' : CList α), l.Inv → l.Detached → l.live = xs →
      xs.foldlM (fun l e => body e l) l = .ok l' → l'.Inv ∧ l'.Detached ∧ l'.live = [] := by
  intro xs
  induction xs with
  | nil =>
      intro l l' hl hd hlive h
      cases h
      exact ⟨hl, hd, hlive⟩
  | cons e zs ih =>
      intro l l' hl hd hlive h
      simp only [List.foldlM_cons] at h
      obtain ⟨l₂, h₂, h⟩ := Result.bind_eq_ok.mp h
      obtain ⟨v, l₁, h₁, h₁'⟩ := hb e l l₂ h₂
      obtain ⟨-, hdrop⟩ := Dropped.of_eq hl (hlive ▸ List.mem_cons_self) h₁ h₁'
      exact ih l₂ l' hdrop.inv (hdrop.detached hd) (by rw [hdrop.live, hlive, List.erase_cons_head]) h

end Loop

end CList

end Dgrid.Clist
