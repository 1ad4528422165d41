import Dgrid.Go.Heap
import Dgrid.Lib.GoMap
import Dgrid.Lib.Transition

/-! The switch's table of peers (peer_set.go). A `PeerSet` keeps its peers twice: in a slice
`list`, which `List()` hands out without copying, and in a map `lookup` from each peer's ID to
its item (the peer and its position in `list`). `Add` appends to the slice in place while its
capacity allows; `Remove` builds a new slice, moves the last peer into the vacated position and
patches that peer's item.

The peers are of any type `P` with an ID function of type `P → K`; a cell of the slice holds
`Option P`, `none` being a nil `Peer`. An item is a pointer held by the map alone, so writing
through it is an update of its map entry. `HasIP` (which reads the peers' IPs) is left out.

The invariant `Wf` says that the two copies agree; `Frozen` from `Go.Heap` says a slice handed
out by `List()` can no longer be written. -/

namespace Dgrid.P2p

open Go GoMap

/-- `ErrSwitchDuplicatePeerID`. -/
structure ErrSwitchDuplicatePeerID (K : Type) where
  ID : K
deriving Repr, DecidableEq

/-- `peerSetItem`: a peer and its position in `list`. -/
structure peerSetItem (P : Type) where
  peer : P
  index : Nat
deriving Repr, DecidableEq

/-- `PeerSet`: the map from ID to item, and the header of the slice of peers. -/
structure PeerSet (P K : Type) where
  lookup : Map K (peerSetItem P)
  list : SliceHeader

namespace PeerSet

variable {P K : Type} [DecidableEq K] (ID : P → K)

/-- `NewPeerSet`: an empty map and `make([]Peer, 0, 256)`. -/
def NewPeerSet (h : Heap (Option P)) : Result (PeerSet P K × Heap (Option P)) := do
  let (list, h) ← h.make 0 256
  pure (⟨∅, list⟩, h)

/-- `Add`: a peer whose ID is present is refused, with the state unchanged; otherwise it is
appended and indexed. -/
def Add (g : Growth) (h : Heap (Option P)) (ps : PeerSet P K) (peer : P) :
    Option (ErrSwitchDuplicatePeerID K) × PeerSet P K × Heap (Option P) :=
  if (ps.lookup.lookup (ID peer)).isSome then (some ⟨ID peer⟩, ps, h)
  else
    let index := ps.list.len
    let (list, h) := h.append g ps.list (some peer)
    (none, ⟨ps.lookup.insert (ID peer) ⟨peer, index⟩, list⟩, h)

/-- `Remove`: a new slice one shorter holding the first peers; unless the removed peer was the
last, the last peer moves into its position and its item is patched. -/
def Remove (h : Heap (Option P)) (ps : PeerSet P K) (peer : P) :
    Result (Bool × PeerSet P K × Heap (Option P)) :=
  match ps.lookup.lookup (ID peer) with
  | none => pure (false, ps, h)
  | some item => do
    let index := item.index
    let (newList, h) ← h.make ((ps.list.len : Int) - 1) ((ps.list.len : Int) - 1)
    let h := h.copy newList ps.list
    if (index : Int) = (ps.list.len : Int) - 1 then
      pure (true, ⟨ps.lookup.erase (ID peer), newList⟩, h)
    else
      let lastPeer ← h.load ps.list ((ps.list.len : Int) - 1)
      match lastPeer with
      | none => .panic "invalid memory address or nil pointer dereference"
      | some lastPeer =>
        let lastPeerKey := ID lastPeer
        let lastPeerItem := ps.lookup.lookup lastPeerKey
        let h ← h.store newList index (some lastPeer)
        match lastPeerItem with
        | none => .panic "invalid memory address or nil pointer dereference"
        | some lastPeerItem =>
          let lookup := ps.lookup.insert lastPeerKey { lastPeerItem with index := index }
          pure (true, ⟨lookup.erase (ID peer), newList⟩, h)

def Has (ps : PeerSet P K) (peerKey : K) : Bool := (ps.lookup.lookup peerKey).isSome

/-- `Get`: the peer, or nil. -/
def Get (ps : PeerSet P K) (peerKey : K) : Option P := (ps.lookup.lookup peerKey).map (·.peer)

def Size (ps : PeerSet P K) : Nat := ps.list.len

/-- `List`: the slice itself, not a copy. -/
def List (ps : PeerSet P K) : SliceHeader := ps.list

/-! ### The invariant -/

/-- The two copies of the table agree: every item points at its peer's cell, every cell holds a
peer whose item points back at it, and there are as many items as cells. -/
structure Wf (h : Heap (Option P)) (ps : PeerSet P K) : Prop where
  backs : h.Backs ps.list
  len_eq : len ps.lookup = ps.list.len
  slot : ∀ id item, ps.lookup.lookup id = some item →
    (h.view ps.list)[item.index]? = some (some item.peer) ∧ ID item.peer = id
  back : ∀ i c, (h.view ps.list)[i]? = some c →
    ∃ p, c = some p ∧ ps.lookup.lookup (ID p) = some ⟨p, i⟩

variable {ID} {h : Heap (Option P)} {ps : PeerSet P K}

theorem Wf.index_lt (hw : Wf ID h ps) {id : K} {item : peerSetItem P}
    (hl : ps.lookup.lookup id = some item) : item.index < ps.list.len := by
  have hs := (hw.slot id item hl).1
  rw [← hw.backs.length_view]
  exact (List.getElem?_eq_some_iff.mp hs).1

theorem Wf.eq_of_ID_eq (hw : Wf ID h ps) {i j : Nat} {p q : P}
    (hi : (h.view ps.list)[i]? = some (some p)) (hj : (h.view ps.list)[j]? = some (some q))
    (he : ID p = ID q) : i = j := by
  obtain ⟨p', hp, hlp⟩ := hw.back i _ hi
  obtain ⟨q', hq, hlq⟩ := hw.back j _ hj
  cases hp
  cases hq
  rw [he, hlq] at hlp
  exact (peerSetItem.mk.inj (Option.some.inj hlp)).2.symm

theorem Wf.eq_of_index_eq (hw : Wf ID h ps) {id id' : K} {it it' : peerSetItem P}
    (hl : ps.lookup.lookup id = some it) (hl' : ps.lookup.lookup id' = some it')
    (he : it.index = it'.index) : id = id' := by
  obtain ⟨hs, rfl⟩ := hw.slot id it hl
  obtain ⟨hs', rfl⟩ := hw.slot id' it' hl'
  rw [he, hs'] at hs
  rw [Option.some.inj (Option.some.inj hs)]

theorem Wf.last (hw : Wf ID h ps) (hn : 0 < ps.list.len) :
    ∃ r, (h.view ps.list)[ps.list.len - 1]? = some (some r) ∧
      ps.lookup.lookup (ID r) = some ⟨r, ps.list.len - 1⟩ := by
  have hlt : ps.list.len - 1 < (h.view ps.list).length := by
    rw [hw.backs.length_view]
    omega
  obtain ⟨r, hr, hlr⟩ := hw.back _ _ (List.getElem?_eq_getElem hlt)
  exact ⟨r, by rw [List.getElem?_eq_getElem hlt, hr], hlr⟩

/-! ### `Add` -/

variable (ID) in
theorem Add_of_isSome (g : Growth) {peer : P} (hl : (ps.lookup.lookup (ID peer)).isSome) :
    Add ID g h ps peer = (some ⟨ID peer⟩, ps, h) := by
  simp [Add, hl]

variable (ID) in
theorem Add_of_none (g : Growth) {peer : P} (hl : ps.lookup.lookup (ID peer) = none) :
    Add ID g h ps peer = (none, ⟨ps.lookup.insert (ID peer) ⟨peer, ps.list.len⟩,
      (h.append g ps.list (some peer)).1⟩, (h.append g ps.list (some peer)).2) := by
  simp [Add, hl]

theorem Wf.add (hw : Wf ID h ps) (g : Growth) {peer : P} (hl : ps.lookup.lookup (ID peer) = none) :
    Wf ID (h.append g ps.list (some peer)).2
      ⟨ps.lookup.insert (ID peer) ⟨peer, ps.list.len⟩, (h.append g ps.list (some peer)).1⟩ := by
  obtain ⟨hview, hbacks⟩ := Heap.append_spec g hw.backs (some peer)
  have hlen := hw.backs.length_view
  refine ⟨hbacks, ?_, ?_, ?_⟩
  · rw [len_insert_of_notMem (AList.lookup_eq_none.mp hl), hw.len_eq, Heap.len_append]
  · intro id item hitem
    simp only [hview]
    rcases lookup_insert_eq_some.mp hitem with ⟨rfl, rfl⟩ | ⟨hne, hold⟩
    · simp [hlen]
    · obtain ⟨hs, hid⟩ := hw.slot id item hold
      have hi := hw.index_lt hold
      rw [List.getElem?_append_left (hlen ▸ hi)]
      exact ⟨hs, hid⟩
  · intro i c hc
    simp only [hview, List.getElem?_append, hlen] at hc
    split at hc
    · obtain ⟨p, rfl, hp⟩ := hw.back i c hc
      have hne : ID p ≠ ID peer := fun he => by rw [he, hl] at hp; cases hp
      exact ⟨p, rfl, by rw [AList.lookup_insert_ne hne, hp]⟩
    · have hi : i = ps.list.len := by
        have := (List.getElem?_eq_some_iff.mp hc).1
        simp at this
        omega
      subst hi
      simp at hc
      exact ⟨peer, hc.symm, AList.lookup_insert _⟩

/-! ### `Remove` -/

variable (ID) in
theorem Remove_of_none {peer : P} (hl : ps.lookup.lookup (ID peer) = none) :
    Remove ID h ps peer = .ok (false, ps, h) := by
  simp [Remove, hl]

/-- The slice `Remove` builds first: `make([]Peer, len(ps.list)-1)` filled by `copy`. -/
def shrink (h : Heap (Option P)) (s : SliceHeader) : SliceHeader × Heap (Option P) :=
  let newList : SliceHeader := ⟨h.next, s.len - 1, s.len - 1⟩
  (newList, (h.alloc (List.replicate (s.len - 1) default)).2.copy newList s)

@[simp] theorem shrink_fst (s : SliceHeader) : (shrink h s).1 = ⟨h.next, s.len - 1, s.len - 1⟩ :=
  rfl

theorem shrink_snd (s : SliceHeader) :
    (shrink h s).2 = (h.alloc (List.replicate (s.len - 1) default)).2.copy (shrink h s).1 s := rfl

@[simp] theorem next_shrink (s : SliceHeader) : (shrink h s).2.next = h.next + 1 := rfl

theorem view_shrink_of_lt {s t : SliceHeader} (ht : t.arr < h.next) :
    (shrink h s).2.view t = h.view t := by
  simp only [shrink]
  rw [Heap.view_copy_of_ne (Nat.ne_of_lt ht), Heap.view_alloc_of_lt ht]

theorem shrink_backs {s : SliceHeader} (hs : h.Backs s) : (shrink h s).2.Backs s :=
  (hs.alloc _).copy _ _

theorem backs_shrink (s : SliceHeader) : (shrink h s).2.Backs (shrink h s).1 :=
  (Heap.backs_make le_rfl).copy _ _

theorem view_shrink {s : SliceHeader} (hs : h.Backs s) :
    (shrink h s).2.view (shrink h s).1 = (h.view s).take (s.len - 1) := by
  have hv := Heap.view_alloc_of_lt hs.arr_lt (List.replicate (s.len - 1) (default : Option P))
  have hl : s.len - 1 ≤ ((h.alloc (List.replicate (s.len - 1) default)).2.view s).length := by
    rw [hv, hs.length_view]
    omega
  simp only [shrink]
  rw [Heap.view_copy_of_le (Heap.backs_make le_rfl) hl, hv]

theorem make_pred {s : SliceHeader} (hn : 0 < s.len) :
    h.make ((s.len : Int) - 1) ((s.len : Int) - 1) =
      .ok ((shrink h s).1, (h.alloc (List.replicate (s.len - 1) default)).2) := by
  have : (s.len : Int) - 1 = ((s.len - 1 : Nat) : Int) := by omega
  rw [this]
  exact Heap.make_of_le le_rfl

variable (ID) in
theorem Remove_of_last {peer : P} {item : peerSetItem P}
    (hl : ps.lookup.lookup (ID peer) = some item) (hi : item.index + 1 = ps.list.len) :
    Remove ID h ps peer =
      .ok (true, ⟨ps.lookup.erase (ID peer), (shrink h ps.list).1⟩, (shrink h ps.list).2) := by
  have hk : (item.index : Int) = (ps.list.len : Int) - 1 := by omega
  simp only [Remove, hl]
  rw [make_pred (by omega)]
  simp [hk, shrink]

variable (ID) in
theorem Remove_of_lt (hw : Wf ID h ps) {peer r : P} {item : peerSetItem P}
    (hl : ps.lookup.lookup (ID peer) = some item) (hi : item.index + 1 < ps.list.len)
    (hr : (h.view ps.list)[ps.list.len - 1]? = some (some r))
    (hrl : ps.lookup.lookup (ID r) = some ⟨r, ps.list.len - 1⟩) :
    Remove ID h ps peer =
      .ok (true, ⟨(ps.lookup.insert (ID r) ⟨r, item.index⟩).erase (ID peer), (shrink h ps.list).1⟩,
        (shrink h ps.list).2.setArray (shrink h ps.list).1.arr
          (((shrink h ps.list).2.arrays (shrink h ps.list).1.arr).set item.index (some r))) := by
  have hk : (item.index : Int) ≠ (ps.list.len : Int) - 1 := by omega
  have hload : (shrink h ps.list).2.load ps.list ((ps.list.len : Int) - 1) = .ok (some r) := by
    have : (ps.list.len : Int) - 1 = ((ps.list.len - 1 : Nat) : Int) := by omega
    rw [this]
    exact Heap.load_of_getElem? (by rw [view_shrink_of_lt hw.backs.arr_lt]; exact hr)
  have hstore := Heap.store_of_lt (h := (shrink h ps.list).2) (s := (shrink h ps.list).1)
    (i := item.index) (by simp; omega) (some r)
  simp only [Remove, hl]
  rw [make_pred (by omega)]
  simp only [Result.ok_bind, hk, if_false, ← shrink_snd]
  rw [hload, Result.ok_bind]
  dsimp only
  rw [hstore, Result.ok_bind, hrl]
  rfl

theorem Wf.remove_last (hw : Wf ID h ps) {peer : P} {item : peerSetItem P}
    (hl : ps.lookup.lookup (ID peer) = some item) (hi : item.index + 1 = ps.list.len) :
    Wf ID (shrink h ps.list).2 ⟨ps.lookup.erase (ID peer), (shrink h ps.list).1⟩ := by
  have hview := view_shrink hw.backs
  refine ⟨backs_shrink _, ?_, ?_, ?_⟩
  · have := len_erase_of_lookup hl
    have := hw.len_eq
    simp only [shrink_fst]
    omega
  · intro id it hit
    obtain ⟨hne, hold⟩ := lookup_erase_eq_some.mp hit
    obtain ⟨hs, hid⟩ := hw.slot id it hold
    have hlt := hw.index_lt hold
    -- the removed peer held the last cell, so `it` sits before it
    have hk : it.index ≠ item.index := fun he => hne (hw.eq_of_index_eq hold hl he)
    rw [hview, List.getElem?_take, if_pos (by omega)]
    exact ⟨hs, hid⟩
  · intro i c hc
    rw [hview, List.getElem?_take] at hc
    split at hc
    case isTrue hlt =>
      obtain ⟨p, rfl, hp⟩ := hw.back i _ hc
      have hne : ID p ≠ ID peer := by
        intro he
        rw [he, hl] at hp
        cases hp
        simp only at hi
        omega
      exact ⟨p, rfl, by rw [AList.lookup_erase_ne hne, hp]⟩
    case isFalse => cases hc

theorem Wf.remove_lt (hw : Wf ID h ps) {peer r : P} {item : peerSetItem P}
    (hl : ps.lookup.lookup (ID peer) = some item) (hi : item.index + 1 < ps.list.len)
    (hrl : ps.lookup.lookup (ID r) = some ⟨r, ps.list.len - 1⟩) :
    Wf ID ((shrink h ps.list).2.setArray (shrink h ps.list).1.arr
          (((shrink h ps.list).2.arrays (shrink h ps.list).1.arr).set item.index (some r)))
      ⟨(ps.lookup.insert (ID r) ⟨r, item.index⟩).erase (ID peer), (shrink h ps.list).1⟩ := by
  have hview : ((shrink h ps.list).2.setArray (shrink h ps.list).1.arr
      (((shrink h ps.list).2.arrays (shrink h ps.list).1.arr).set item.index (some r))).view
        (shrink h ps.list).1 = ((h.view ps.list).take (ps.list.len - 1)).set item.index (some r) := by
    rw [Heap.view_set_self, view_shrink hw.backs]
  have hlen := hw.backs.length_view
  have hrp : ID r ≠ ID peer := by
    intro he
    rw [he, hl] at hrl
    cases hrl
    simp only at hi
    omega
  refine ⟨(backs_shrink _).set _ _ _, ?_, ?_, ?_⟩
  · have hpeer : (ps.lookup.insert (ID r) ⟨r, item.index⟩).lookup (ID peer) = some item := by
      rw [AList.lookup_insert_ne hrp.symm, hl]
    have := len_erase_of_lookup hpeer
    rw [len_insert_of_lookup hrl] at this
    have := hw.len_eq
    simp only [shrink_fst]
    omega
  · intro id it hit
    rw [hview]
    obtain ⟨hne, hins⟩ := lookup_erase_eq_some.mp hit
    rcases lookup_insert_eq_some.mp hins with ⟨rfl, rfl⟩ | ⟨hner, hold⟩
    · -- the last peer, moved into the vacated cell
      rw [List.getElem?_set_self (by simp; omega)]
      exact ⟨rfl, rfl⟩
    · -- any other peer keeps its cell, which lies before the last and is not the vacated one
      obtain ⟨hs, hid⟩ := hw.slot id it hold
      have hlt := hw.index_lt hold
      have hk : item.index ≠ it.index := fun he => hne (hw.eq_of_index_eq hold hl he.symm)
      have hn : it.index ≠ ps.list.len - 1 := fun he => hner (hw.eq_of_index_eq hold hrl he)
      rw [List.getElem?_set_ne hk, List.getElem?_take, if_pos (by omega)]
      exact ⟨hs, hid⟩
  · intro i c hc
    rw [hview, List.getElem?_set] at hc
    split at hc
    case isTrue hik =>
      subst hik
      rw [if_pos (by simp; omega)] at hc
      cases hc
      exact ⟨r, rfl, by rw [AList.lookup_erase_ne hrp, AList.lookup_insert]⟩
    case isFalse hik =>
      rw [List.getElem?_take] at hc
      split at hc
      case isFalse => cases hc
      case isTrue hlt =>
        obtain ⟨p, rfl, hp⟩ := hw.back i _ hc
        have hpp : ID p ≠ ID peer := by
          intro he
          rw [he, hl] at hp
          cases hp
          exact hik rfl
        have hpr : ID p ≠ ID r := by
          intro he
          rw [he, hrl] at hp
          cases hp
          omega
        refine ⟨p, rfl, ?_⟩
        rw [AList.lookup_erase_ne hpp, AList.lookup_insert_ne hpr, hp]

/-! ### Slices handed out by `List()` -/

theorem keeps_shrink (s : SliceHeader) : Heap.Keeps h s (shrink h s).2 (shrink h s).1 :=
  Heap.keeps_of_fresh le_rfl (by simp) fun _ ht => view_shrink_of_lt ht

theorem keeps_shrink_set (s : SliceHeader) (i : Nat) (x : Option P) :
    Heap.Keeps h s ((shrink h s).2.setArray (shrink h s).1.arr (((shrink h s).2.arrays
      (shrink h s).1.arr).set i x)) (shrink h s).1 := by
  refine Heap.keeps_of_fresh le_rfl (by simp) fun t ht => ?_
  rw [Heap.view_setArray_of_ne (by simp; omega), view_shrink_of_lt ht]

/-! ### What the table stands for

A partial map from IDs to peers: `Add` fills an empty ID, `Remove` empties one. `Get` reads
the table as that map. -/

variable (ID) in
/-- The abstract `Add`. -/
def addPeer (S : K → Option P) (peer : P) : K → Option P :=
  if (S (ID peer)).isSome then S else Function.update S (ID peer) (some peer)

variable (ID) in
/-- The abstract `Remove`. -/
def removePeer (S : K → Option P) (peer : P) : K → Option P := Function.update S (ID peer) none

@[simp] theorem Get_mk (m : Map K (peerSetItem P)) (l : SliceHeader) (k : K) :
    (⟨m, l⟩ : PeerSet P K).Get k = (m.lookup k).map (·.peer) := rfl

theorem Wf.mem_view_iff (hw : Wf ID h ps) (p : P) :
    some p ∈ h.view ps.list ↔ ps.Get (ID p) = some p := by
  constructor
  · intro hm
    obtain ⟨i, hi⟩ := List.getElem?_of_mem hm
    obtain ⟨q, hq, hl⟩ := hw.back i _ hi
    cases hq
    simp [Get, hl]
  · intro hg
    obtain ⟨item, hl, rfl⟩ := Option.map_eq_some_iff.mp hg
    exact List.mem_of_getElem? (hw.slot _ item hl).1

/-! ### The calls -/

theorem Wf.Add_ok (hw : Wf ID h ps) (g : Growth) (peer : P) :
    ∃ err ps' h', Add ID g h ps peer = (err, ps', h') ∧ (err.isSome ↔ ps.Has (ID peer)) ∧
      ps'.Get = addPeer ID ps.Get peer ∧ Wf ID h' ps' ∧ Heap.Keeps h ps.list h' ps'.list := by
  cases hl : ps.lookup.lookup (ID peer) with
  | none =>
    have hget : ∀ l, (⟨ps.lookup.insert (ID peer) ⟨peer, ps.list.len⟩, l⟩ : PeerSet P K).Get =
        addPeer ID ps.Get peer := by
      intro l
      funext k
      by_cases hk : k = ID peer
      · subst hk
        simp [addPeer, Get, hl]
      · simp [addPeer, Get, hl, hk, AList.lookup_insert_ne hk]
    exact ⟨none, _, _, Add_of_none ID g hl, by simp [Has, hl], hget _, hw.add g hl,
      Heap.keeps_append g _ _⟩
  | some item =>
    have hs : (ps.lookup.lookup (ID peer)).isSome := by simp [hl]
    exact ⟨_, ps, h, Add_of_isSome ID g hs, by simp [Has, hl], by simp [addPeer, Get, hl], hw,
      Heap.Keeps.refl _⟩

theorem Wf.Remove_ok (hw : Wf ID h ps) (peer : P) :
    ∃ b ps' h', Remove ID h ps peer = .ok (b, ps', h') ∧ (b = true ↔ ps.Has (ID peer)) ∧
      ps'.Get = removePeer ID ps.Get peer ∧ Wf ID h' ps' ∧ Heap.Keeps h ps.list h' ps'.list := by
  cases hl : ps.lookup.lookup (ID peer) with
  | none =>
    have hget : ps.Get = removePeer ID ps.Get peer := by
      funext k
      by_cases hk : k = ID peer
      · subst hk
        simp [removePeer, Get, hl]
      · simp [removePeer, hk]
    exact ⟨false, ps, h, Remove_of_none ID hl, by simp [Has, hl], hget, hw, Heap.Keeps.refl _⟩
  | some item =>
    have hlt := hw.index_lt hl
    obtain ⟨r, hr, hrl⟩ := hw.last (by omega)
    rcases Nat.lt_or_eq_of_le (Nat.succ_le_of_lt hlt) with hi | hi
    · -- the last peer moves into the vacated cell; as a map only the removed ID changes
      have hget : ∀ l, (⟨(ps.lookup.insert (ID r) ⟨r, item.index⟩).erase (ID peer), l⟩ :
          PeerSet P K).Get = removePeer ID ps.Get peer := by
        intro l
        funext k
        by_cases hk : k = ID peer
        · subst hk
          simp [removePeer]
        · by_cases hkr : k = ID r
          · subst hkr
            simp [removePeer, Get, hk, AList.lookup_erase_ne hk, hrl]
          · simp [removePeer, Get, hk, AList.lookup_erase_ne hk, AList.lookup_insert_ne hkr]
      exact ⟨true, _, _, Remove_of_lt ID hw hl hi hr hrl, by simp [Has, hl], hget _,
        hw.remove_lt hl hi hrl, keeps_shrink_set _ _ _⟩
    · have hget : ∀ l, (⟨ps.lookup.erase (ID peer), l⟩ : PeerSet P K).Get =
          removePeer ID ps.Get peer := by
        intro l
        funext k
        by_cases hk : k = ID peer
        · subst hk
          simp [removePeer]
        · simp [removePeer, Get, hk, AList.lookup_erase_ne hk]
      exact ⟨true, _, _, Remove_of_last ID hl hi, by simp [Has, hl], hget _, hw.remove_last hl hi,
        keeps_shrink _⟩

theorem NewPeerSet_wf {h' : Heap (Option P)} (hn : NewPeerSet h = .ok (ps, h')) : Wf ID h' ps := by
  have hm : h.make 0 256 = .ok (⟨h.next, 0, 256⟩, (h.alloc (List.replicate 256 default)).2) :=
    Heap.make_of_le (n := 0) (c := 256) (by decide)
  rw [NewPeerSet, hm, Result.ok_bind] at hn
  cases hn
  refine ⟨Heap.backs_make (by decide), rfl, ?_, ?_⟩
  · intro id item hitem
    cases hitem
  · intro i c hc
    rw [Heap.view_make (by decide), List.replicate_zero] at hc
    cases hc

/-! ### Runs of calls -/

end PeerSet

/-- The table together with the heap its slice lives in. -/
structure PeerSetState (P K : Type) where
  heap : Heap (Option P)
  ps : PeerSet P K

/-- The calls that change the table. -/
inductive PeerSetCall (P : Type) where
  | Add (peer : P)
  | Remove (peer : P)

namespace PeerSetState

variable {P K : Type} [DecidableEq K] (ID : P → K) (g : Growth)

/-- One call on the table. -/
def call (st : PeerSetState P K) : PeerSetCall P → Result (PeerSetState P K)
  | .Add peer =>
    let r := PeerSet.Add ID g st.heap st.ps peer
    .ok ⟨r.2.2, r.2.1⟩
  | .Remove peer => do
    let r ← PeerSet.Remove ID st.heap st.ps peer
    pure ⟨r.2.2, r.2.1⟩

/-- A table as `NewPeerSet` returns it, over any heap. -/
def Initial (st : PeerSetState P K) : Prop := ∃ h, PeerSet.NewPeerSet h = .ok (st.ps, st.heap)

/-- One call that returns. -/
def Step (st st' : PeerSetState P K) : Prop := ∃ c, st.call ID g c = .ok st'

/-- The tables some sequence of `Add` and `Remove` calls leads to. -/
def Reachable (st : PeerSetState P K) : Prop := Transition.Reachable Initial (Step ID g) st

variable {ID g}

variable (ID) in
/-- The abstract call on the map of peers. -/
def absCall (S : K → Option P) : PeerSetCall P → K → Option P
  | .Add peer => PeerSet.addPeer ID S peer
  | .Remove peer => PeerSet.removePeer ID S peer

theorem wf_call {st : PeerSetState P K} (hw : PeerSet.Wf ID st.heap st.ps) (c : PeerSetCall P) :
    ∃ st', st.call ID g c = .ok st' ∧ st'.ps.Get = absCall ID st.ps.Get c ∧
      PeerSet.Wf ID st'.heap st'.ps ∧ Heap.Keeps st.heap st.ps.list st'.heap st'.ps.list := by
  cases c with
  | Add peer =>
    obtain ⟨err, ps', h', he, -, hget, hw', hk⟩ := hw.Add_ok g peer
    exact ⟨⟨h', ps'⟩, by simp [call, he], hget, hw', hk⟩
  | Remove peer =>
    obtain ⟨b, ps', h', he, -, hget, hw', hk⟩ := hw.Remove_ok peer
    exact ⟨⟨h', ps'⟩, by simp [call, he], hget, hw', hk⟩

theorem Step.wf {st st' : PeerSetState P K} (hs : Step ID g st st')
    (hw : PeerSet.Wf ID st.heap st.ps) : PeerSet.Wf ID st'.heap st'.ps ∧
      Heap.Keeps st.heap st.ps.list st'.heap st'.ps.list := by
  obtain ⟨c, hc⟩ := hs
  obtain ⟨st'', hc', -, hw', hk⟩ := wf_call (g := g) hw c
  rw [hc] at hc'
  cases hc'
  exact ⟨hw', hk⟩

theorem Reachable.wf {st : PeerSetState P K} (hr : st.Reachable ID g) : PeerSet.Wf ID st.heap st.ps :=
  Transition.Reachable.invariant (P := fun st => PeerSet.Wf ID st.heap st.ps)
    (fun _ ⟨_, hn⟩ => PeerSet.NewPeerSet_wf hn) (fun _ _ _ hw hs => (Step.wf hs hw).1) hr

theorem keeps_run {st st' : PeerSetState P K} (hw : PeerSet.Wf ID st.heap st.ps)
    (hrun : Relation.ReflTransGen (Step ID g) st st') :
    PeerSet.Wf ID st'.heap st'.ps ∧ Heap.Keeps st.heap st.ps.list st'.heap st'.ps.list := by
  induction hrun with
  | refl => exact ⟨hw, Heap.Keeps.refl _⟩
  | tail _ hs ih =>
    obtain ⟨hw', hk'⟩ := hs.wf ih.1
    exact ⟨hw', ih.2.trans hk'⟩

/-- Peers `3` and `7` added to a new table, then `3` removed: `7` moves into the freed cell. -/
theorem reachable_added :
    ∃ st : PeerSetState Nat Nat, st.Reachable id Growth.doubling ∧ st.ps.Has 3 = false ∧
      st.ps.Has 7 = true ∧ st.ps.Size = 1 := by
  let st₀ : PeerSetState Nat Nat :=
    ⟨(Heap.alloc ⟨fun _ => [], 0⟩ (List.replicate 256 none)).2, ⟨∅, ⟨0, 0, 256⟩⟩⟩
  have h₀ : st₀.Reachable id Growth.doubling := .init ⟨⟨fun _ => [], 0⟩, rfl⟩
  have hrun : (st₀.call id Growth.doubling (.Add 3) >>= fun s₁ =>
      s₁.call id Growth.doubling (.Add 7) >>= fun s₂ =>
        s₂.call id Growth.doubling (.Remove 3) >>= fun s₃ =>
          pure (s₃.ps.Has 3, s₃.ps.Has 7, s₃.ps.Size)) = .ok (false, true, 1) := by
    decide +kernel
  obtain ⟨s₁, h₁, hrun⟩ := Result.bind_eq_ok.mp hrun
  obtain ⟨s₂, h₂, hrun⟩ := Result.bind_eq_ok.mp hrun
  obtain ⟨s₃, h₃, hrun⟩ := Result.bind_eq_ok.mp hrun
  simp only [Result.pure_eq, Result.ok.injEq, Prod.mk.injEq] at hrun
  exact ⟨s₃, .step (.step (.step h₀ ⟨_, h₁⟩) ⟨_, h₂⟩) ⟨_, h₃⟩, hrun.1, hrun.2.1, hrun.2.2⟩

/-- The table's list and index agree on every reachable table: as many items as cells, every
item points at its peer's cell, no two cells hold one ID, `Add` refuses exactly a present ID,
`Remove` returns and reports exactly a present ID, and a slice `List()` returned is never
changed by later calls. -/
theorem reachable_peerSet_consistent {st : PeerSetState P K} (hr : st.Reachable ID g) :
    len st.ps.lookup = st.ps.list.len ∧
    (∀ id item, st.ps.lookup.lookup id = some item →
      (st.heap.view st.ps.list)[item.index]? = some (some item.peer) ∧ ID item.peer = id) ∧
    (∀ (i j : Nat) (p q : P), (st.heap.view st.ps.list)[i]? = some (some p) →
      (st.heap.view st.ps.list)[j]? = some (some q) → ID p = ID q → i = j) ∧
    (∀ peer, (PeerSet.Add ID g st.heap st.ps peer).1.isSome ↔ st.ps.Has (ID peer)) ∧
    (∀ peer, ∃ b r, PeerSet.Remove ID st.heap st.ps peer = .ok (b, r) ∧
      (b = true ↔ st.ps.Has (ID peer))) ∧
    (∀ st', Relation.ReflTransGen (Step ID g) st st' →
      st'.heap.view st.ps.List = st.heap.view st.ps.List) := by
  have hw := hr.wf
  refine ⟨hw.len_eq, hw.slot, fun i j p q hi hj he => hw.eq_of_ID_eq hi hj he, ?_, ?_, ?_⟩
  · intro peer
    obtain ⟨err, ps', h', he, hiff, -⟩ := hw.Add_ok g peer
    rw [he]
    exact hiff
  · intro peer
    obtain ⟨b, ps', h', he, hiff, -⟩ := hw.Remove_ok peer
    exact ⟨b, (ps', h'), he, hiff⟩
  · intro st' hrun
    exact ((keeps_run hw hrun).2 _ hw.backs.frozen).1

theorem reachable_peerSet_consistent_added :
    ∃ st : PeerSetState Nat Nat, st.Reachable id Growth.doubling ∧ st.ps.Has 3 = false ∧
    st.ps.Has 7 = true ∧ st.ps.Size = 1 ∧
    len st.ps.lookup = st.ps.list.len ∧
    (∀ (k : Nat) (item : peerSetItem Nat), st.ps.lookup.lookup k = some item →
      (st.heap.view st.ps.list)[item.index]? = some (some item.peer) ∧ id item.peer = k) ∧
    (∀ (i j p q : Nat), (st.heap.view st.ps.list)[i]? = some (some p) →
      (st.heap.view st.ps.list)[j]? = some (some q) → id p = id q → i = j) ∧
    (∀ peer : Nat, (PeerSet.Add id Growth.doubling st.heap st.ps peer).1.isSome ↔
      st.ps.Has (id peer)) ∧
    (∀ peer : Nat, ∃ b r, PeerSet.Remove id st.heap st.ps peer = .ok (b, r) ∧
      (b = true ↔ st.ps.Has (id peer))) ∧
    (∀ st', Relation.ReflTransGen (Step id Growth.doubling) st st' →
      st'.heap.view st.ps.List = st.heap.view st.ps.List) := by
  obtain ⟨st, hr, h3, h7, hsize⟩ := reachable_added
  exact ⟨st, hr, h3, h7, hsize, reachable_peerSet_consistent hr⟩

/-- On every reachable table `Get` follows the abstract map through each call, and the slice
holds exactly the peers `Get` gives. -/
theorem reachable_refines {st : PeerSetState P K} (hr : st.Reachable ID g) (c : PeerSetCall P) :
    (∀ p, some p ∈ st.heap.view st.ps.List ↔ st.ps.Get (ID p) = some p) ∧
    ∃ st', st.call ID g c = .ok st' ∧ st'.ps.Get = absCall ID st.ps.Get c := by
  obtain ⟨st', hc, hget, -⟩ := wf_call (g := g) hr.wf c
  exact ⟨hr.wf.mem_view_iff, st', hc, hget⟩

theorem reachable_refines_added :
    ∃ st : PeerSetState Nat Nat, st.Reachable id Growth.doubling ∧ st.ps.Has 7 = true ∧
      (∀ p, some p ∈ st.heap.view st.ps.List ↔ st.ps.Get (id p) = some p) ∧
      ∃ st', st.call id Growth.doubling (.Remove 7) = .ok st' ∧
        st'.ps.Get = absCall id st.ps.Get (.Remove 7) := by
  obtain ⟨st, hr, -, h7, -⟩ := reachable_added
  exact ⟨st, hr, h7, reachable_refines hr (.Remove 7)⟩

end PeerSetState

end Dgrid.P2p
