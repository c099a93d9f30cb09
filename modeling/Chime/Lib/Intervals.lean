import Mathlib.Data.List.Perm.Basic
import Mathlib.Order.CompletePartialOrder
import Mathlib.Order.Interval.Set.Disjoint

/-!
# Lists of half-open intervals

`union xs` has the points of the intervals in a list. Intervals are `Apart` when each ends before the next one begins,
so that no two of them touch. An interval of points of intervals that are apart lies inside of one of them
(`Apart.exists_within`), and intervals that are apart are determined by their points (`Apart.unique`).
-/

namespace Intervals

variable {α : Type} [LinearOrder α] {xs ys : List (α × α)} {x y : α × α} {t : α}

/-- The points of the intervals. -/
def union (xs : List (α × α)) : Set α := {t | ∃ x ∈ xs, x.1 ≤ t ∧ t < x.2}

/-- The intervals are in the order of their beginnings. -/
def Sorted (xs : List (α × α)) : Prop := xs.Pairwise fun x y => x.1 ≤ y.1

/-- Each interval ends before the next one begins. -/
def Apart (xs : List (α × α)) : Prop := xs.Pairwise fun x y => x.2 < y.1

theorem mem_union_cons : t ∈ union (x :: xs) ↔ (x.1 ≤ t ∧ t < x.2) ∨ t ∈ union xs := by
  constructor
  · rintro ⟨y, hy, ht⟩
    rcases List.mem_cons.1 hy with rfl | hy
    · exact .inl ht
    · exact .inr ⟨y, hy, ht⟩
  · rintro (ht | ⟨y, hy, ht⟩)
    · exact ⟨x, List.mem_cons_self, ht⟩
    · exact ⟨y, List.mem_cons_of_mem _ hy, ht⟩

theorem mem_union_singleton : t ∈ union [x] ↔ x.1 ≤ t ∧ t < x.2 := by
  rw [mem_union_cons, or_iff_left]
  rintro ⟨y, hy, -⟩
  cases hy

theorem union_perm (h : xs.Perm ys) : union xs = union ys := by
  ext t
  simp only [union, Set.mem_ofPred_eq, h.mem_iff]

theorem Ico_subset_union (hx : x ∈ xs) : Set.Ico x.1 x.2 ⊆ union xs := fun _ ht => ⟨x, hx, ht⟩

namespace Apart

theorem lt (h : Apart xs) (hne : ∀ x ∈ xs, x.1 < x.2) : xs.Pairwise fun x y => x.1 < y.1 :=
  h.imp_of_mem fun hx _ hxy => (hne _ hx).trans hxy

theorem disjoint (h : Apart xs) : xs.Pairwise fun x y => Disjoint (Set.Ico x.1 x.2) (Set.Ico y.1 y.2) :=
  h.imp fun hxy => Set.disjoint_left.2 fun _ hx hy => absurd (hx.2.trans hxy) (not_lt.2 hy.1)

/-- The end of an interval is a point of none. -/
theorem end_not_mem (h : Apart xs) (hne : ∀ x ∈ xs, x.1 < x.2) (hx : x ∈ xs) : x.2 ∉ union xs := by
  rintro ⟨y, hy, hle, hlt⟩
  have hget := List.pairwise_iff_getElem.1 h
  obtain ⟨i, hi, rfl⟩ := List.mem_iff_getElem.1 hx
  obtain ⟨j, hj, rfl⟩ := List.mem_iff_getElem.1 hy
  rcases lt_trichotomy i j with hij | rfl | hij
  · exact absurd (hget i j hi hj hij) (not_lt.2 hle)
  · exact absurd hlt (lt_irrefl _)
  · exact absurd ((hget j i hj hi hij).trans (hne _ hx)) (not_lt.2 hlt.le)

/-- An interval of points of the intervals lies inside of one of them. -/
theorem exists_within (h : Apart ys) (hne : ∀ y ∈ ys, y.1 < y.2) (hx : x.1 < x.2)
    (hsub : Set.Ico x.1 x.2 ⊆ union ys) : ∃ y ∈ ys, y.1 ≤ x.1 ∧ x.2 ≤ y.2 := by
  obtain ⟨y, hy, hle, hlt⟩ := hsub ⟨le_rfl, hx⟩
  refine ⟨y, hy, hle, not_lt.1 fun hend => ?_⟩
  exact h.end_not_mem hne hy (hsub ⟨hlt.le, hend⟩)

/-- The points outside of the first interval. -/
theorem mem_tail_iff (h : Apart (x :: xs)) : t ∈ union xs ↔ t ∈ union (x :: xs) ∧ x.2 < t := by
  rw [mem_union_cons]
  constructor
  · rintro ⟨y, hy, hle, hlt⟩
    exact ⟨.inr ⟨y, hy, hle, hlt⟩, (List.rel_of_pairwise_cons h hy).trans_le hle⟩
  · rintro ⟨⟨-, hlt⟩ | ht, hend⟩
    · exact absurd hlt (not_lt.2 hend.le)
    · exact ht

/-- The first interval begins at the least point. -/
theorem head_le (h : Apart (x :: xs)) (hx : x.1 < x.2) (ht : t ∈ union (x :: xs)) : x.1 ≤ t := by
  rcases mem_union_cons.1 ht with ⟨hle, -⟩ | ht
  · exact hle
  · exact (hx.trans (h.mem_tail_iff.1 ht).2).le

/-- **Normal form**: intervals that are apart are determined by their points. -/
theorem unique (hxs : Apart xs) (hys : Apart ys) (hnx : ∀ x ∈ xs, x.1 < x.2) (hny : ∀ y ∈ ys, y.1 < y.2)
    (h : union xs = union ys) : xs = ys := by
  induction xs generalizing ys with
  | nil =>
    cases ys with
    | nil => rfl
    | cons y ys =>
      obtain ⟨x, hx, -⟩ : y.1 ∈ union [] := h ▸ ⟨y, List.mem_cons_self, le_rfl, hny y List.mem_cons_self⟩
      cases hx
  | cons x xs ih =>
    have hx := hnx x List.mem_cons_self
    have hmem : x.1 ∈ union ys := h ▸ ⟨x, List.mem_cons_self, le_rfl, hx⟩
    cases ys with
    | nil =>
      obtain ⟨y, hy, -⟩ := hmem
      cases hy
    | cons y ys =>
      have hy := hny y List.mem_cons_self
      have hbegin : x.1 = y.1 :=
        le_antisymm (hxs.head_le hx (h ▸ ⟨y, List.mem_cons_self, le_rfl, hy⟩)) (hys.head_le hy hmem)
      -- each of the two ends is a point of no interval
      have hend : x.2 = y.2 := by
        refine le_antisymm (not_lt.1 fun hlt => ?_) (not_lt.1 fun hlt => ?_)
        · exact hys.end_not_mem hny List.mem_cons_self
            (h ▸ mem_union_cons.2 (.inl ⟨hbegin.trans_le hy.le, hlt⟩))
        · exact hxs.end_not_mem hnx List.mem_cons_self
            (h ▸ mem_union_cons.2 (.inl ⟨hbegin.symm.trans_le hx.le, hlt⟩))
      obtain rfl : x = y := Prod.ext hbegin hend
      refine congrArg _ (ih hxs.of_cons hys.of_cons (fun z hz => hnx z (List.mem_cons_of_mem _ hz))
        (fun z hz => hny z (List.mem_cons_of_mem _ hz)) ?_)
      ext t
      rw [hxs.mem_tail_iff, hys.mem_tail_iff, h]

end Apart

end Intervals
