import Mathlib.Data.Set.Lattice
import Mathlib.Logic.Pairwise
import Mathlib.Order.CompletePartialOrder

/-!
# Resources with separate holders

A family of sets gives each holder what it owns. The family is separate if no element has two owners. In a `Transfer`
what a holder owns afterwards comes from one holder before, and where two holders take from the same one, they take
different parts; transfers compose and keep the holders separate (`Transfer.separate`). `nth` reads a list as a family;
`nth_eraseIdx` and `nth_concat` say how the holders shift.
-/

/-- No two holders own the same element. -/
def Separate {ι α : Type} (R : ι → Set α) : Prop := ∀ ⦃i j⦄, i ≠ j → Disjoint (R i) (R j)

/-- **Transfer**: each holder takes from one holder, and those that take from the same one take different parts. -/
def Transfer {ι κ α : Type} (R : ι → Set α) (R' : κ → Set α) : Prop :=
  ∃ f : κ → ι, (∀ k, R' k ⊆ R (f k)) ∧ ∀ j k, j ≠ k → f j = f k → Disjoint (R' j) (R' k)

namespace Transfer

variable {ι κ μ α : Type} {R : ι → Set α} {R' : κ → Set α} {R'' : μ → Set α}

/-- A transfer in which no two holders take from the same one. -/
theorem of_injective (f : κ → ι) (hf : Function.Injective f) (hsub : ∀ k, R' k ⊆ R (f k)) : Transfer R R' :=
  ⟨f, hsub, fun _ _ hjk he => absurd (hf he) hjk⟩

theorem of_subset {R' : ι → Set α} (hsub : ∀ i, R' i ⊆ R i) : Transfer R R' :=
  of_injective id Function.injective_id hsub

theorem trans (h : Transfer R R') (h' : Transfer R' R'') : Transfer R R'' := by
  obtain ⟨f, hsub, hsplit⟩ := h
  obtain ⟨g, hsub', hsplit'⟩ := h'
  refine ⟨f ∘ g, fun k => (hsub' k).trans (hsub (g k)), fun j k hjk he => ?_⟩
  by_cases hg : g j = g k
  · exact hsplit' j k hjk hg
  · exact (hsplit _ _ hg he).mono (hsub' j) (hsub' k)

/-- A transfer keeps the holders separate. -/
theorem separate (h : Transfer R R') (hR : Separate R) : Separate R' := by
  obtain ⟨f, hsub, hsplit⟩ := h
  intro j k hjk
  by_cases hf : f j = f k
  · exact hsplit j k hjk hf
  · exact (hR hf).mono (hsub j) (hsub k)

end Transfer

/-- The set that belongs to an entry of a list. -/
def nth {β α : Type} (g : β → Set α) (l : List β) (i : Nat) : Set α := {x | ∃ b, l[i]? = some b ∧ x ∈ g b}

section Nth

variable {β α : Type} {g : β → Set α} {l : List β} {b : β} {i j : Nat}

theorem nth_eq (h : l[i]? = some b) : nth g l i = g b := by
  ext x
  simp [nth, h]

@[simp] theorem nth_nil : nth g [] i = ∅ := by
  ext x
  simp [nth]

@[simp] theorem nth_cons_zero : nth g (b :: l) 0 = g b := nth_eq rfl

@[simp] theorem nth_cons_succ : nth g (b :: l) (i + 1) = nth g l i := rfl

/-- The entries after an erased one move up. -/
def shiftPast (i j : Nat) : Nat := if j < i then j else j + 1

theorem shiftPast_ne : shiftPast i j ≠ i := by
  unfold shiftPast
  split <;> omega

theorem shiftPast_injective : Function.Injective (shiftPast i) := by
  intro a b h
  unfold shiftPast at h
  split at h <;> split at h <;> omega

theorem nth_eraseIdx : nth g (l.eraseIdx i) j = nth g l (shiftPast i j) := by
  ext x
  simp only [nth, List.getElem?_eraseIdx, shiftPast]
  split <;> rfl

/-- An entry at the end. -/
theorem nth_concat : nth g (l ++ [b]) j = if j = l.length then g b else nth g l j := by
  split
  · rename_i h
    exact nth_eq (by simp [h])
  · rename_i h
    ext x
    simp only [nth, List.getElem?_append]
    split
    · rfl
    · rw [List.getElem?_eq_none (by simp; omega), List.getElem?_eq_none (by omega)]

end Nth
