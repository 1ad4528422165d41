import Mathlib.Data.List.Basic

/-! Two notions for the messages a channel carries. `Lossy.DropsOnly p l l'`: `l'` is `l` with
some of the elements `p` marks left out, the others kept in order. `Framing.reassemble`: the
messages a receiver rebuilds from a stream of pieces, each marked whether it ends its
message. -/

namespace Lossy

variable {α : Type} (p : α → Bool)

/-- `l'` is `l` with some of the elements `p` marks left out: a sublist that keeps every element
`p` does not mark. -/
def DropsOnly (l l' : List α) : Prop :=
  List.Sublist l' l ∧ l'.filter (fun x => !p x) = l.filter (fun x => !p x)

variable {p}

theorem DropsOnly.refl (l : List α) : DropsOnly p l l := ⟨List.Sublist.refl l, rfl⟩

theorem DropsOnly.trans {l₁ l₂ l₃ : List α} (h₁ : DropsOnly p l₁ l₂) (h₂ : DropsOnly p l₂ l₃) :
    DropsOnly p l₁ l₃ :=
  ⟨h₂.1.trans h₁.1, h₂.2.trans h₁.2⟩

theorem DropsOnly.append {l l' : List α} (h : DropsOnly p l l') (m : List α) :
    DropsOnly p (l ++ m) (l' ++ m) := by
  refine ⟨h.1.append (List.Sublist.refl m), ?_⟩
  rw [List.filter_append, List.filter_append, h.2]

theorem dropsOnly_erase (a b : List α) {x : α} (hx : p x = true) :
    DropsOnly p (a ++ x :: b) (a ++ b) := by
  refine ⟨(List.Sublist.refl a).append (List.sublist_cons_self x b), ?_⟩
  simp [List.filter_append, hx]

theorem DropsOnly.length_le {l l' : List α} (h : DropsOnly p l l') : l'.length ≤ l.length :=
  h.1.length_le

theorem DropsOnly.mem {l l' : List α} (h : DropsOnly p l l') {x : α} (hx : x ∈ l) (hp : p x = false) :
    x ∈ l' := by
  have hx' : x ∈ l.filter (fun x => !p x) := List.mem_filter.mpr ⟨hx, by simp [hp]⟩
  rw [← h.2] at hx'
  exact (List.mem_filter.mp hx').1

theorem DropsOnly.split {l d r : List α} (h : DropsOnly p l (d ++ r)) :
    ∃ l₁ l₂, l = l₁ ++ l₂ ∧ DropsOnly p l₁ d ∧ DropsOnly p l₂ r := by
  obtain ⟨l₁, l₂, rfl, h₁, h₂⟩ := List.append_sublist_iff.mp h.1
  have hf := h.2
  rw [List.filter_append, List.filter_append] at hf
  -- the filtered parts are sublists of the filtered cut, of the same total length
  have hlen := congrArg List.length hf
  simp only [List.length_append] at hlen
  have le₁ := (h₁.filter (fun x => !p x)).length_le
  have le₂ := (h₂.filter (fun x => !p x)).length_le
  have e₁ : d.filter (fun x => !p x) = l₁.filter (fun x => !p x) :=
    (h₁.filter _).eq_of_length (by omega)
  rw [e₁] at hf
  exact ⟨l₁, l₂, rfl, ⟨h₁, e₁⟩, h₂, List.append_cancel_left hf⟩

end Lossy

namespace Framing

variable {α : Type}

/-- The messages rebuilt from `pieces` when `acc` is the partial message before the first: each
piece is appended to the partial message, and a piece marked final completes it. The completed
messages and the partial message left. -/
def reassemble : List α → List (List α × Bool) → List (List α) × List α
  | acc, [] => ([], acc)
  | acc, (b, eof) :: rest =>
    if eof then ((acc ++ b) :: (reassemble [] rest).1, (reassemble [] rest).2)
    else reassemble (acc ++ b) rest

@[simp] theorem reassemble_nil (acc : List α) : reassemble acc [] = ([], acc) := rfl

@[simp] theorem reassemble_cons_true (acc b : List α) (rest : List (List α × Bool)) :
    reassemble acc ((b, true) :: rest) = ((acc ++ b) :: (reassemble [] rest).1, (reassemble [] rest).2) :=
  rfl

@[simp] theorem reassemble_cons_false (acc b : List α) (rest : List (List α × Bool)) :
    reassemble acc ((b, false) :: rest) = reassemble (acc ++ b) rest := rfl

theorem reassemble_append (acc : List α) (xs ys : List (List α × Bool)) :
    reassemble acc (xs ++ ys) =
      ((reassemble acc xs).1 ++ (reassemble (reassemble acc xs).2 ys).1,
        (reassemble (reassemble acc xs).2 ys).2) := by
  induction xs generalizing acc with
  | nil => rfl
  | cons x xs ih =>
    obtain ⟨b, eof⟩ := x
    cases eof
    · simp only [List.cons_append, reassemble_cons_false, ih]
    · simp only [List.cons_append, reassemble_cons_true, ih, List.cons_append]

theorem reassemble_of_empty {ps : List (List α × Bool)} (hps : ∀ x ∈ ps, x.1 = []) :
    (∀ m ∈ (reassemble [] ps).1, m = []) ∧ (reassemble [] ps).2 = [] := by
  induction ps with
  | nil => simp
  | cons x ps ih =>
    obtain ⟨b, eof⟩ := x
    have hb : b = [] := hps _ List.mem_cons_self
    have ih := ih fun y hy => hps y (List.mem_cons_of_mem _ hy)
    subst hb
    cases eof
    · simpa using ih
    · simpa using ih

end Framing
