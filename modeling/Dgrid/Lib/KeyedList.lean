import Dgrid.Go.Sort

/-! Lists kept strictly sorted by a key: the two-pointer merge that lets the second list win on
equal keys, the two-pointer removal of a sorted list of keys, and the binary-search lookup of a
key. Each is characterised by a list the reader already knows (a filter, an append). -/

namespace KeyedList

variable {κ β : Type} [LinearOrder κ] (key : β → κ)

/-- Keys strictly increase along the list. -/
def StrictSorted (l : List β) : Prop := l.Pairwise (fun a b => key a < key b)

/-- The elements of `l` whose key is not the key of any element of `ks`. -/
def without (l ks : List β) : List β := l.filter (fun x => decide (key x ∉ ks.map key))

/-- Merge two key-sorted lists; on equal keys the element of the second list replaces the
element of the first. -/
def mergeByKey : List β → List β → List β
  | e :: es, u :: us =>
      if key e < key u then e :: mergeByKey es (u :: us)
      else if key e = key u then u :: mergeByKey es us
      else u :: mergeByKey (e :: es) us
  | [], us => us
  | es, [] => es
termination_by es us => es.length + us.length

/-- Walk `l`, dropping the head whenever its key is the key of the next deletion. `none` when the
deletions are not all met in order, where the walk would read past the end of `l`. -/
def removeByKey : List β → List β → Option (List β)
  | l, [] => some l
  | [], _ :: _ => none
  | e :: es, d :: ds =>
      if key e = key d then removeByKey es ds else (e :: ·) <$> removeByKey es (d :: ds)

/-- The predicate `sort.Search` is given to find key `k`: the key at position `i` is at least `k`. -/
def atLeast [Inhabited β] (l : List β) (k : κ) (i : Nat) : Bool := decide (k ≤ key l[i]!)

variable {key}

theorem strictSorted_cons {a : β} {l : List β} :
    StrictSorted key (a :: l) ↔ (∀ b ∈ l, key a < key b) ∧ StrictSorted key l :=
  List.pairwise_cons

theorem StrictSorted.tail {a : β} {l : List β} (h : StrictSorted key (a :: l)) :
    StrictSorted key l := (strictSorted_cons.mp h).2

theorem StrictSorted.head_lt {a b : β} {l : List β} (h : StrictSorted key (a :: l))
    (hb : b ∈ l) : key a < key b := (strictSorted_cons.mp h).1 b hb

theorem StrictSorted.head_le {a b : β} {l : List β} (h : StrictSorted key (a :: l))
    (hb : b ∈ a :: l) : key a ≤ key b := by
  rcases List.mem_cons.mp hb with rfl | hb
  · exact le_rfl
  · exact (h.head_lt hb).le

theorem StrictSorted.nodup_keys {l : List β} (h : StrictSorted key l) : (l.map key).Nodup :=
  List.pairwise_map.mpr (h.imp ne_of_lt)

theorem StrictSorted.eq_of_key_eq {l : List β} (h : StrictSorted key l) {i j : Nat}
    (hi : i < l.length) (hj : j < l.length) (he : key l[i] = key l[j]) : i = j := by
  by_contra hne
  rcases Nat.lt_or_gt_of_ne hne with hij | hji
  · exact (List.pairwise_iff_getElem.mp h i j hi hj hij).ne he
  · exact (List.pairwise_iff_getElem.mp h j i hj hi hji).ne he.symm

theorem mem_without {x : β} {l ks : List β} :
    x ∈ without key l ks ↔ x ∈ l ∧ key x ∉ ks.map key := by
  simp [without]

theorem StrictSorted.without {l : List β} (h : StrictSorted key l) (ks : List β) :
    StrictSorted key (without key l ks) := h.filter _

@[simp] theorem without_nil (l : List β) : without key l [] = l := by simp [without]

@[simp] theorem nil_without (ks : List β) : without key [] ks = [] := rfl

theorem without_cons_of_lt {e : β} {l ks : List β} (h : ∀ k ∈ ks, key e < key k) :
    without key (e :: l) ks = e :: without key l ks := by
  have he : decide (key e ∉ ks.map key) = true := by
    simp only [decide_eq_true_eq, List.mem_map, not_exists, not_and]
    exact fun k hk hke => (h k hk).ne hke.symm
  simp only [without, List.filter_cons, he, if_true]

theorem without_cons_key {u : β} {l ks : List β} (h : ∀ x ∈ l, key u < key x) :
    without key l (u :: ks) = without key l ks := by
  unfold without
  refine List.filter_congr (fun x hx => ?_)
  have hne : key u ≠ key x := (h x hx).ne
  simp [hne.symm]

theorem without_ne_nil {l ks : List β} (hl : StrictSorted key l) (hks : StrictSorted key ks)
    (hsub : ∀ k ∈ ks, key k ∈ l.map key) (hlen : l.length ≠ ks.length) :
    without key l ks ≠ [] := by
  intro hnil
  have hall : ∀ x ∈ l, key x ∈ ks.map key := by
    intro x hx
    by_contra hn
    have hmem : x ∈ without key l ks := mem_without.mpr ⟨hx, hn⟩
    rw [hnil] at hmem
    cases hmem
  have h₁ := (hl.nodup_keys.subperm (fun k hk => by
    obtain ⟨x, hx, rfl⟩ := List.mem_map.mp hk
    exact hall x hx)).length_le
  have h₂ := (hks.nodup_keys.subperm (fun k hk => by
    obtain ⟨x, hx, rfl⟩ := List.mem_map.mp hk
    exact hsub x hx)).length_le
  simp only [List.length_map] at h₁ h₂
  omega

@[simp] theorem mergeByKey_nil_right (es : List β) : mergeByKey key es [] = es := by
  cases es <;> simp [mergeByKey]

theorem mem_mergeByKey {x : β} {es us : List β} (hx : x ∈ mergeByKey key es us) :
    x ∈ es ∨ x ∈ us := by
  fun_induction mergeByKey key es us with
  | case1 e es u us hlt ih =>
      rcases List.mem_cons.mp hx with rfl | hx
      · exact .inl (List.mem_cons_self ..)
      · exact (ih hx).imp (List.mem_cons_of_mem e) id
  | case2 e es u us hlt heq ih =>
      rcases List.mem_cons.mp hx with rfl | hx
      · exact .inr (List.mem_cons_self ..)
      · exact (ih hx).imp (List.mem_cons_of_mem e) (List.mem_cons_of_mem u)
  | case3 e es u us hlt heq ih =>
      rcases List.mem_cons.mp hx with rfl | hx
      · exact .inr (List.mem_cons_self ..)
      · exact (ih hx).imp id (List.mem_cons_of_mem u)
  | case4 us => exact .inr hx
  | case5 es hes => exact .inl hx

theorem mergeByKey_sorted {es us : List β} (hes : StrictSorted key es)
    (hus : StrictSorted key us) : StrictSorted key (mergeByKey key es us) := by
  fun_induction mergeByKey key es us with
  | case1 e es u us hlt ih =>
      refine strictSorted_cons.mpr ⟨fun x hx => ?_, ih hes.tail hus⟩
      rcases mem_mergeByKey hx with hx | hx
      · exact hes.head_lt hx
      · exact lt_of_lt_of_le hlt (hus.head_le hx)
  | case2 e es u us hlt heq ih =>
      refine strictSorted_cons.mpr ⟨fun x hx => ?_, ih hes.tail hus.tail⟩
      rcases mem_mergeByKey hx with hx | hx
      · exact heq ▸ hes.head_lt hx
      · exact hus.head_lt hx
  | case3 e es u us hlt heq ih =>
      have hue : key u < key e := lt_of_le_of_ne (not_lt.mp hlt) (Ne.symm heq)
      refine strictSorted_cons.mpr ⟨fun x hx => ?_, ih hes hus.tail⟩
      rcases mem_mergeByKey hx with hx | hx
      · exact lt_of_lt_of_le hue (hes.head_le hx)
      · exact hus.head_lt hx
  | case4 us => exact hus
  | case5 es hes' => exact hes

theorem mergeByKey_perm {es us : List β} (hes : StrictSorted key es)
    (hus : StrictSorted key us) : (mergeByKey key es us).Perm (without key es us ++ us) := by
  fun_induction mergeByKey key es us with
  | case1 e es u us hlt ih =>
      have hlow : ∀ k ∈ u :: us, key e < key k := fun k hk => lt_of_lt_of_le hlt (hus.head_le hk)
      rw [without_cons_of_lt hlow]
      exact (ih hes.tail hus).cons e
  | case2 e es u us hlt heq ih =>
      have hdrop : without key (e :: es) (u :: us) = without key es us := by
        have he : key e ∈ (u :: us).map key := by simp [heq]
        simp only [without, List.filter_cons, he, not_true_eq_false, decide_false,
          Bool.false_eq_true, if_false]
        exact without_cons_key (fun x hx => heq ▸ hes.head_lt hx)
      rw [hdrop]
      exact ((ih hes.tail hus.tail).cons u).trans List.perm_middle.symm
  | case3 e es u us hlt heq ih =>
      have hue : key u < key e := lt_of_le_of_ne (not_lt.mp hlt) (Ne.symm heq)
      rw [without_cons_key (fun x hx => lt_of_lt_of_le hue (hes.head_le hx))]
      exact ((ih hes hus.tail).cons u).trans List.perm_middle.symm
  | case4 us => simp
  | case5 es hes' => simp

theorem mem_mergeByKey_iff {x : β} {es us : List β} (hes : StrictSorted key es)
    (hus : StrictSorted key us) : x ∈ mergeByKey key es us ↔ x ∈ without key es us ∨ x ∈ us := by
  rw [(mergeByKey_perm hes hus).mem_iff, List.mem_append]

theorem removeByKey_eq {es ds : List β} (hes : StrictSorted key es) (hds : StrictSorted key ds)
    (hsub : ∀ d ∈ ds, key d ∈ es.map key) : removeByKey key es ds = some (without key es ds) := by
  fun_induction removeByKey key es ds with
  | case1 l => simp
  | case2 d ds => exact absurd (hsub d List.mem_cons_self) (by simp)
  | case3 e es d ds heq ih =>
      -- the head is the next deletion: both lists advance
      have hlow : ∀ x ∈ es, key d < key x := fun x hx => heq ▸ hes.head_lt hx
      have hrest : ∀ d' ∈ ds, key d' ∈ es.map key := by
        intro d' hd'
        have hlt : key e < key d' := heq ▸ hds.head_lt hd'
        have hmem := hsub d' (List.mem_cons_of_mem d hd')
        rw [List.map_cons, List.mem_cons] at hmem
        rcases hmem with h | h
        · exact absurd h hlt.ne'
        · exact h
      have hdrop : decide (key e ∉ (d :: ds).map key) = false := by simp [heq]
      rw [ih hes.tail hds.tail hrest]
      simp only [without, List.filter_cons, hdrop, Bool.false_eq_true, if_false]
      rw [← without, ← without, without_cons_key hlow]
  | case4 e es d ds hne ih =>
      -- the head is kept; the next deletion lies further on
      have hed : key e < key d := by
        have hmem := hsub d List.mem_cons_self
        rw [List.map_cons, List.mem_cons] at hmem
        rcases hmem with h | h
        · exact absurd h.symm hne
        · obtain ⟨x, hx, hxd⟩ := List.mem_map.mp h
          exact hxd ▸ hes.head_lt hx
      have hlow : ∀ k ∈ d :: ds, key e < key k := fun k hk => lt_of_lt_of_le hed (hds.head_le hk)
      have hrest : ∀ d' ∈ d :: ds, key d' ∈ es.map key := by
        intro d' hd'
        have hmem := hsub d' hd'
        rw [List.map_cons, List.mem_cons] at hmem
        rcases hmem with h | h
        · exact absurd h.symm (hlow d' hd').ne
        · exact h
      rw [ih hes.tail hds hrest, without_cons_of_lt hlow]
      rfl

theorem atLeast_monotone [Inhabited β] {l : List β} (hl : StrictSorted key l) (k : κ) :
    Go.Monotone l.length (atLeast key l k) := by
  intro a b hab hb ha
  simp only [atLeast, decide_eq_true_eq] at ha ⊢
  rw [getElem!_pos l a (by omega)] at ha
  rw [getElem!_pos l b hb]
  rcases Nat.lt_or_eq_of_le hab with hab | rfl
  · exact ha.trans (List.pairwise_iff_getElem.mp hl a b (by omega) hb hab).le
  · exact ha

theorem search_atLeast [Inhabited β] {l : List β} (hl : StrictSorted key l) (k : κ) :
    (Go.search l.length (atLeast key l k) < l.length ∧
      key l[Go.search l.length (atLeast key l k)]! = k) ↔ k ∈ l.map key := by
  obtain ⟨_, hbelow, hat⟩ := Go.search_spec (atLeast_monotone hl k)
  constructor
  · rintro ⟨hi, hk⟩
    rw [getElem!_pos l _ hi] at hk
    exact List.mem_map.mpr ⟨_, List.getElem_mem hi, hk⟩
  · intro hk
    obtain ⟨x, hx, rfl⟩ := List.mem_map.mp hk
    obtain ⟨m, hm, rfl⟩ := List.mem_iff_getElem.mp hx
    -- positions before the answer hold smaller keys, so the answer is at most `m`
    have hle : Go.search l.length (atLeast key l (key l[m])) ≤ m := by
      by_contra hgt
      have := hbelow m (by omega)
      simp [atLeast, getElem!_pos l m hm] at this
    have hi : Go.search l.length (atLeast key l (key l[m])) < l.length := by omega
    refine ⟨hi, ?_⟩
    have hge := hat hi
    simp only [atLeast, decide_eq_true_eq] at hge
    rw [getElem!_pos l _ hi] at hge ⊢
    rcases Nat.lt_or_eq_of_le hle with hlt | heq
    · exact absurd (List.pairwise_iff_getElem.mp hl _ m hi hm hlt) (not_lt.mpr hge)
    · simp only [heq]

end KeyedList
