import Dgrid.Go.Basic

/-! `pkg/clist/clist.go`: a doubly linked list that goroutines walk while it changes. A pointer
to an element is its address in the heap of every element the list allocated, in allocation
order, so a removed element stays readable and keeps its `next` pointer for an iterator that
holds it. The lock, the wait groups and the wait channels, which only wake waiting goroutines,
are left out. -/

namespace Dgrid.Clist
open Go

/-- `clist.CElement`. A nil pointer is `none`. -/
structure CElement (α : Type) where
  prev : Option Nat
  next : Option Nat
  removed : Bool
  Value : α
deriving DecidableEq, Repr

/-- `clist.CList`, with the heap `elems` of the elements it allocated. -/
structure CList (α : Type) where
  elems : List (CElement α)
  head : Option Nat
  tail : Option Nat
  len : Int
  maxLen : Int
deriving DecidableEq, Repr

/-- `MaxLength`, the largest `int`. -/
def MaxLength : Int := maxInt64

namespace CList

variable {α : Type}

/-- The element `e` points to. -/
def elem (l : CList α) (e : Nat) : Result (CElement α) :=
  match l.elems[e]? with
  | some c => .ok c
  | none => .panic "invalid memory address or nil pointer dereference"

/-- A write through the pointer `e`. -/
def modify (l : CList α) (e : Nat) (f : CElement α → CElement α) : CList α :=
  { l with elems := l.elems.modify e f }

def Next (l : CList α) (e : Nat) : Result (Option Nat) := do
  return (← l.elem e).next

def Prev (l : CList α) (e : Nat) : Result (Option Nat) := do
  return (← l.elem e).prev

def Value (l : CList α) (e : Nat) : Result α := do
  return (← l.elem e).Value

def SetNext (l : CList α) (e : Nat) (newNext : Option Nat) : CList α :=
  l.modify e fun c => { c with next := newNext }

def SetPrev (l : CList α) (e : Nat) (newPrev : Option Nat) : CList α :=
  l.modify e fun c => { c with prev := newPrev }

def SetRemoved (l : CList α) (e : Nat) : CList α :=
  l.modify e fun c => { c with removed := true }

def DetachNext (l : CList α) (e : Nat) : Result (CList α) := do
  let c ← l.elem e
  if !c.removed then .panic "DetachNext() must be called after Remove(e)"
  else pure (l.modify e fun c => { c with next := none })

def DetachPrev (l : CList α) (e : Nat) : Result (CList α) := do
  let c ← l.elem e
  if !c.removed then .panic "DetachPrev() must be called after Remove(e)"
  else pure (l.modify e fun c => { c with prev := none })

/-- `clist.New()`: an empty list of maximal length `MaxLength`. -/
def New : CList α := ⟨[], none, none, 0, MaxLength⟩

def Len (l : CList α) : Int := l.len

def Front (l : CList α) : Option Nat := l.head

def Back (l : CList α) : Option Nat := l.tail

/-- `l.PushBack(v)`: the new element is allocated at the end of the heap. -/
def PushBack (l : CList α) (v : α) : Result (Nat × CList α) :=
  if l.len ≥ l.maxLen then .panic "clist: maximum length list reached"
  else
    let e := l.elems.length
    let c : CElement α := { prev := none, next := none, removed := false, Value := v }
    let l := { l with elems := l.elems ++ [c], len := l.len + 1 }
    match l.tail with
    | none => .ok (e, { l with head := some e, tail := some e })
    | some t => .ok (e, { (l.SetPrev e (some t)).SetNext t (some e) with tail := some e })

/-- `l.Remove(e)`: the neighbours are linked to each other; `e` keeps both its pointers. -/
def Remove (l : CList α) (e : Nat) : Result (α × CList α) := do
  let c ← l.elem e
  let prev := c.prev
  let next := c.next
  if l.head = none ∨ l.tail = none then .panic "Remove(e) on empty CList"
  else if prev = none ∧ l.head ≠ some e then .panic "Remove(e) with false head"
  else if next = none ∧ l.tail ≠ some e then .panic "Remove(e) with false tail"
  else
    let l := { l with len := l.len - 1 }
    let l := match prev with
      | none => { l with head := next }
      | some p => l.SetNext p next
    let l := match next with
      | none => { l with tail := prev }
      | some n => l.SetPrev n prev
    pure (c.Value, l.SetRemoved e)

/-- The loop `for e := start; e != nil; e = e.Next() { ... }` of a caller whose state `s`
holds the list `list s`: the next pointer is read after the body has run, so a body that
removes `e` does not stop the walk. The callers give as `fuel` the size of the heap, which a
walk along increasing addresses never exceeds. -/
def forEach {σ : Type} (list : σ → CList α) (body : Nat → σ → Result σ) :
    Nat → Option Nat → σ → Result σ
  | _, none, s => .ok s
  | 0, some _, _ => .panic "the walk outlasts the heap"
  | fuel + 1, some e, s => do
      let s ← body e s
      let next ← (list s).Next e
      forEach list body fuel next s

end CList

end Dgrid.Clist
