import Chime.Lib.Intervals
import Mathlib.Data.List.Sort

/-!
# Merged read segments (`Tree::range_query`)

`merge_internals` joins the intervals of slots that a range query wants from one leaf: intervals that touch become one,
and with `GREEDY_RANGE_QUERY` also intervals that fit into one read of `maxLeafEntryPerIO` slots. An interval is
half-open.

The first sweep takes the sorted intervals to the intervals of the same slots that are apart (`mergeRuns_touching`),
so its result does not depend on the order in which the intervals come (`mergeInternals_perm`). The second one keeps
them apart and adds slots only where one read takes the run (`mergeRuns_apart`).
-/

namespace Chime

open Intervals

/-- The loop that extends a run as long as the next interval joins it. -/
def joinRuns (joins : Nat × Nat → Nat × Nat → Bool) : Nat × Nat → List (Nat × Nat) → List (Nat × Nat)
  | run, [] => [run]
  | run, x :: xs => if joins run x then joinRuns joins (run.1, max run.2 x.2) xs else run :: joinRuns joins x xs

/-- The runs of a list of intervals. -/
def mergeRuns (joins : Nat × Nat → Nat × Nat → Bool) : List (Nat × Nat) → List (Nat × Nat)
  | [] => []
  | x :: xs => joinRuns joins x xs

/-- `merge_internals`; `none`: without `GREEDY_RANGE_QUERY`. -/
def mergeInternals (maxLeafEntry : Option Nat) (intervals : List (Nat × Nat)) : List (Nat × Nat) :=
  let temp := mergeRuns (fun run x => x.1 ≤ run.2) (intervals.insertionSort fun a b => a.1 ≤ b.1)
  match maxLeafEntry with
  | none => temp
  | some n => mergeRuns (fun run x => max run.2 x.2 ≤ run.1 + n) temp

/-- A nonempty interval of slots. -/
def InSpan (leafSpanSize : Nat) (x : Nat × Nat) : Prop := x.1 < x.2 ∧ x.2 ≤ leafSpanSize

section

variable {N : Nat} {joins : Nat × Nat → Nat × Nat → Bool} {xs : List (Nat × Nat)} {run : Nat × Nat}

theorem joinRuns_inSpan (hrun : InSpan N run) (hxs : ∀ x ∈ xs, InSpan N x) :
    ∀ x ∈ joinRuns joins run xs, InSpan N x := by
  induction xs generalizing run with
  | nil =>
    intro x hx
    rw [List.mem_singleton.1 hx]
    exact hrun
  | cons y ys ih =>
    have hy := hxs y List.mem_cons_self
    have hys : ∀ x ∈ ys, InSpan N x := fun x hx => hxs x (List.mem_cons_of_mem _ hx)
    rw [joinRuns]
    split
    · exact ih ⟨lt_of_lt_of_le hrun.1 (Nat.le_max_left _ _), Nat.max_le.2 ⟨hrun.2, hy.2⟩⟩ hys
    · intro x hx
      rcases List.mem_cons.1 hx with rfl | hx
      · exact hrun
      · exact ih hy hys x hx

theorem mergeRuns_inSpan (hxs : ∀ x ∈ xs, InSpan N x) : ∀ x ∈ mergeRuns joins xs, InSpan N x := by
  cases xs with
  | nil => exact hxs
  | cons y ys => exact joinRuns_inSpan (hxs y List.mem_cons_self) fun x hx => hxs x (List.mem_cons_of_mem _ hx)

/-- **The merged intervals** are nonempty and within the leaf. -/
theorem mergeInternals_inSpan (maxLeafEntry : Option Nat) (hxs : ∀ x ∈ xs, InSpan N x) :
    ∀ x ∈ mergeInternals maxLeafEntry xs, InSpan N x := by
  have hsort : ∀ x ∈ xs.insertionSort fun a b => a.1 ≤ b.1, InSpan N x :=
    fun x hx => hxs x ((List.mem_insertionSort _).1 hx)
  have htemp : ∀ x ∈ mergeRuns (fun run x => x.1 ≤ run.2) (xs.insertionSort fun a b => a.1 ≤ b.1), InSpan N x :=
    mergeRuns_inSpan hsort
  unfold mergeInternals
  cases maxLeafEntry with
  | none => exact htemp
  | some n => exact mergeRuns_inSpan htemp

/-! ## Slots of the runs -/

theorem sorted_joined {x : Nat × Nat} (hs : Sorted (run :: x :: xs)) : Sorted ((run.1, max run.2 x.2) :: xs) :=
  List.pairwise_cons.2 ⟨fun _ hy => List.rel_of_pairwise_cons hs (List.mem_cons_of_mem _ hy), hs.of_cons.of_cons⟩

theorem le_of_mem_joinRuns (hs : Sorted (run :: xs)) : ∀ y ∈ joinRuns joins run xs, run.1 ≤ y.1 := by
  induction xs generalizing run with
  | nil =>
    intro y hy
    rw [List.mem_singleton.1 hy]
  | cons x xs ih =>
    rw [joinRuns]
    split
    · exact ih (sorted_joined hs)
    · intro y hy
      rcases List.mem_cons.1 hy with rfl | hy
      · exact le_rfl
      · exact (List.rel_of_pairwise_cons hs List.mem_cons_self).trans (ih hs.of_cons y hy)

/-- No slot is lost. -/
theorem union_subset_joinRuns (hs : Sorted (run :: xs)) : union (run :: xs) ⊆ union (joinRuns joins run xs) := by
  induction xs generalizing run with
  | nil => exact subset_rfl
  | cons x xs ih =>
    intro t ht
    have hle : run.1 ≤ x.1 := List.rel_of_pairwise_cons hs List.mem_cons_self
    rw [joinRuns]
    split
    · refine ih (sorted_joined hs) (mem_union_cons.2 ?_)
      rcases mem_union_cons.1 ht with ⟨h1, h2⟩ | ht
      · exact .inl ⟨h1, lt_max_of_lt_left h2⟩
      · rcases mem_union_cons.1 ht with ⟨h1, h2⟩ | ht
        · exact .inl ⟨hle.trans h1, lt_max_of_lt_right h2⟩
        · exact .inr ht
    · exact mem_union_cons.2 ((mem_union_cons.1 ht).imp_right fun ht => ih hs.of_cons ht)

/-- Joining intervals that touch adds no slot. -/
theorem joinRuns_subset_union (hjoins : ∀ run x, joins run x = true → x.1 ≤ run.2) (hs : Sorted (run :: xs)) :
    union (joinRuns joins run xs) ⊆ union (run :: xs) := by
  induction xs generalizing run with
  | nil => exact subset_rfl
  | cons x xs ih =>
    intro t ht
    rw [joinRuns] at ht
    split at ht
    · next hj =>
      have htouch := hjoins run x hj
      rcases mem_union_cons.1 (ih (sorted_joined hs) ht) with ⟨h1, h2⟩ | ht
      · rcases lt_or_ge t run.2 with hlt | hge
        · exact mem_union_cons.2 (.inl ⟨h1, hlt⟩)
        · have hx : t < x.2 := (lt_max_iff.1 h2).resolve_left (not_lt.2 hge)
          exact mem_union_cons.2 (.inr (mem_union_cons.2 (.inl ⟨htouch.trans hge, hx⟩)))
      · exact mem_union_cons.2 (.inr (mem_union_cons.2 (.inr ht)))
    · exact mem_union_cons.2 ((mem_union_cons.1 ht).imp_right fun ht => ih hs.of_cons ht)

/-- A run that the next interval does not touch is apart from the later ones. -/
theorem joinRuns_apart_of_touch (hjoins : ∀ run x, joins run x = false → run.2 < x.1) (hs : Sorted (run :: xs)) :
    Apart (joinRuns joins run xs) := by
  induction xs generalizing run with
  | nil => exact List.pairwise_singleton _ _
  | cons x xs ih =>
    rw [joinRuns]
    split
    · exact ih (sorted_joined hs)
    · next hj =>
      have hlt := hjoins run x (Bool.eq_false_iff.2 hj)
      exact List.pairwise_cons.2 ⟨fun y hy => hlt.trans_le (le_of_mem_joinRuns hs.of_cons y hy), ih hs.of_cons⟩

/-- Runs of intervals that are apart are apart. -/
theorem joinRuns_apart (h : Apart (run :: xs)) (hne : ∀ x ∈ run :: xs, x.1 < x.2) :
    Apart (joinRuns joins run xs) := by
  induction xs generalizing run with
  | nil => exact h
  | cons x xs ih =>
    have hx : Apart (x :: xs) := h.of_cons
    have hnx : ∀ y ∈ x :: xs, y.1 < y.2 := fun y hy => hne y (List.mem_cons_of_mem _ hy)
    have hbegin : run.2 < x.1 := List.rel_of_pairwise_cons h List.mem_cons_self
    rw [joinRuns]
    split
    · refine ih (List.pairwise_cons.2 ⟨fun y hy => max_lt ?_ ?_, hx.of_cons⟩) fun y hy => ?_
      · exact List.rel_of_pairwise_cons h (List.mem_cons_of_mem _ hy)
      · exact List.rel_of_pairwise_cons hx hy
      · rcases List.mem_cons.1 hy with rfl | hy
        · exact lt_max_of_lt_left (hne run List.mem_cons_self)
        · exact hnx y (List.mem_cons_of_mem _ hy)
    · have hsorted : Sorted (x :: xs) := (hx.lt hnx).imp le_of_lt
      exact List.pairwise_cons.2 ⟨fun y hy => hbegin.trans_le (le_of_mem_joinRuns hsorted y hy), ih hx hnx⟩

/-- A run is one of the intervals or has been extended. -/
theorem joinRuns_cases :
    ∀ y ∈ joinRuns joins run xs, y ∈ run :: xs ∨ ∃ r x, joins r x = true ∧ y = (r.1, max r.2 x.2) := by
  induction xs generalizing run with
  | nil => exact fun y hy => .inl hy
  | cons x xs ih =>
    intro y hy
    rw [joinRuns] at hy
    split at hy
    · next hj =>
      rcases ih y hy with hy | hy
      · rcases List.mem_cons.1 hy with rfl | hy
        · exact .inr ⟨run, x, hj, rfl⟩
        · exact .inl (List.mem_cons_of_mem _ (List.mem_cons_of_mem _ hy))
      · exact .inr hy
    · rcases List.mem_cons.1 hy with rfl | hy
      · exact .inl List.mem_cons_self
      · exact (ih y hy).imp_left (List.mem_cons_of_mem _)

/-- **The first sweep**: the intervals of the same slots that are apart. -/
theorem mergeRuns_touching (hs : Sorted xs) :
    Apart (mergeRuns (fun run x => decide (x.1 ≤ run.2)) xs) ∧
      union (mergeRuns (fun run x => decide (x.1 ≤ run.2)) xs) = union xs := by
  cases xs with
  | nil => exact ⟨List.Pairwise.nil, rfl⟩
  | cons x xs =>
    exact ⟨joinRuns_apart_of_touch (fun run x hj => not_le.1 (of_decide_eq_false hj)) hs,
      (joinRuns_subset_union (fun run x => of_decide_eq_true) hs).antisymm (union_subset_joinRuns hs)⟩

/-- **The second sweep**: the runs of intervals that are apart are apart, and each is one of them or was joined. -/
theorem mergeRuns_apart (h : Apart xs) (hne : ∀ x ∈ xs, x.1 < x.2) :
    Apart (mergeRuns joins xs) ∧ union xs ⊆ union (mergeRuns joins xs) ∧
      ∀ y ∈ mergeRuns joins xs, y ∈ xs ∨ ∃ r x, joins r x = true ∧ y = (r.1, max r.2 x.2) := by
  cases xs with
  | nil => exact ⟨h, subset_rfl, fun y hy => .inl hy⟩
  | cons x xs => exact ⟨joinRuns_apart h hne, union_subset_joinRuns ((h.lt hne).imp le_of_lt), joinRuns_cases⟩

end

/-! ## The merged segments -/

section

variable {N : Nat} {xs ys : List (Nat × Nat)}

theorem sorted_insertionSort (xs : List (Nat × Nat)) : Sorted (xs.insertionSort fun a b => a.1 ≤ b.1) := by
  have : Std.Total fun a b : Nat × Nat => a.1 ≤ b.1 := ⟨fun a b => le_total a.1 b.1⟩
  have : IsTrans (Nat × Nat) fun a b => a.1 ≤ b.1 := ⟨fun _ _ _ => le_trans⟩
  exact List.pairwise_insertionSort _ xs

/-- The intervals after the first sweep. -/
theorem mergeInternals_none (xs : List (Nat × Nat)) :
    Apart (mergeInternals none xs) ∧ union (mergeInternals none xs) = union xs := by
  obtain ⟨hapart, hunion⟩ := mergeRuns_touching (sorted_insertionSort xs)
  exact ⟨hapart, hunion.trans (union_perm (List.perm_insertionSort _ xs))⟩

theorem mergeInternals_some (n : Nat) (xs : List (Nat × Nat)) :
    mergeInternals (some n) xs =
      mergeRuns (fun run x => decide (max run.2 x.2 ≤ run.1 + n)) (mergeInternals none xs) := rfl

/-- `std::sort` may leave intervals with the same beginning in any order: the result is that of any other order of the
intervals. -/
theorem mergeInternals_perm (maxLeafEntry : Option Nat) (hxs : ∀ x ∈ xs, InSpan N x) (h : ys.Perm xs) :
    mergeInternals maxLeafEntry ys = mergeInternals maxLeafEntry xs := by
  have hys : ∀ y ∈ ys, InSpan N y := fun y hy => hxs y (h.mem_iff.1 hy)
  have htemp : mergeInternals none ys = mergeInternals none xs := by
    obtain ⟨hapart, hunion⟩ := mergeInternals_none xs
    obtain ⟨hapart', hunion'⟩ := mergeInternals_none ys
    refine hapart'.unique hapart (fun y hy => (mergeInternals_inSpan none hys y hy).1)
      (fun x hx => (mergeInternals_inSpan none hxs x hx).1) ?_
    rw [hunion, hunion', union_perm h]
  cases maxLeafEntry with
  | none => exact htemp
  | some n => rw [mergeInternals_some, mergeInternals_some, htemp]

/-- The intervals after the second sweep. -/
theorem mergeInternals_some_apart (n : Nat) (hxs : ∀ x ∈ xs, InSpan N x) :
    Apart (mergeInternals (some n) xs) ∧ union xs ⊆ union (mergeInternals (some n) xs) ∧
      ∀ y ∈ mergeInternals (some n) xs, Set.Ico y.1 y.2 ⊆ union xs ∨ y.2 - y.1 ≤ n := by
  obtain ⟨htemp, hunion⟩ := mergeInternals_none xs
  rw [mergeInternals_some]
  obtain ⟨hapart, hsub, hcases⟩ := @mergeRuns_apart (fun run x => decide (max run.2 x.2 ≤ run.1 + n)) _ htemp
    fun x hx => (mergeInternals_inSpan none hxs x hx).1
  refine ⟨hapart, hunion ▸ hsub, fun y hy => ?_⟩
  rcases hcases y hy with hy | ⟨run, x, hj, rfl⟩
  · exact .inl (hunion ▸ Ico_subset_union hy)
  · exact .inr (Nat.sub_le_iff_le_add'.2 (of_decide_eq_true hj))

theorem mergeInternals_apart (maxLeafEntry : Option Nat) (hxs : ∀ x ∈ xs, InSpan N x) :
    Apart (mergeInternals maxLeafEntry xs) ∧ union xs ⊆ union (mergeInternals maxLeafEntry xs) := by
  cases maxLeafEntry with
  | none => exact ⟨(mergeInternals_none xs).1, (mergeInternals_none xs).2.ge⟩
  | some n => exact ⟨(mergeInternals_some_apart n hxs).1, (mergeInternals_some_apart n hxs).2.1⟩

/-- An interval with a slot that is not wanted comes from the second sweep. -/
theorem mergeInternals_bridges (maxLeafEntry : Option Nat) (hxs : ∀ x ∈ xs, InSpan N x) {y : Nat × Nat}
    (hy : y ∈ mergeInternals maxLeafEntry xs) (hgap : ¬Set.Ico y.1 y.2 ⊆ union xs) :
    ∃ n, maxLeafEntry = some n ∧ y.2 - y.1 ≤ n := by
  cases maxLeafEntry with
  | none => exact absurd ((mergeInternals_none xs).2 ▸ Ico_subset_union hy) hgap
  | some n => exact ⟨n, rfl, ((mergeInternals_some_apart n hxs).2.2 y hy).resolve_left hgap⟩

/-- What a query relies on for the segments it reads in place of the intervals it wants. -/
structure Segments (N : Nat) (maxLeafEntry : Option Nat) (wanted segments : List (Nat × Nat)) : Prop where
  sorted : segments.Pairwise fun y z => y.1 < z.1
  disjoint : segments.Pairwise fun y z => Disjoint (Set.Ico y.1 y.2) (Set.Ico z.1 z.2)
  inSpan : ∀ y ∈ segments, InSpan N y
  covers : ∀ x ∈ wanted, ∃ y ∈ segments, y.1 ≤ x.1 ∧ x.2 ≤ y.2
  /-- a segment with a slot that is not wanted; there is none without `GREEDY_RANGE_QUERY` -/
  bridges : ∀ y ∈ segments, ¬Set.Ico y.1 y.2 ⊆ union wanted → ∃ n, maxLeafEntry = some n ∧ y.2 - y.1 ≤ n

/-- **Merged segments** are sorted, disjoint and within the leaf, cover what is wanted, and are at most one read long
where they have slots that are not wanted. -/
theorem merged_segments (N : Nat) (maxLeafEntry : Option Nat) (xs : List (Nat × Nat))
    (hxs : ∀ x ∈ xs, x.1 < x.2 ∧ x.2 ≤ N) :
    Segments N maxLeafEntry xs (mergeInternals maxLeafEntry xs) := by
  have hspan := mergeInternals_inSpan maxLeafEntry hxs
  have hne : ∀ y ∈ mergeInternals maxLeafEntry xs, y.1 < y.2 := fun y hy => (hspan y hy).1
  obtain ⟨hapart, hsub⟩ := mergeInternals_apart maxLeafEntry hxs
  refine ⟨hapart.lt hne, hapart.disjoint, hspan, fun x hx => ?_, fun y => mergeInternals_bridges maxLeafEntry hxs⟩
  exact hapart.exists_within hne (hxs x hx).1 ((Ico_subset_union hx).trans hsub)

/-- Five intervals of a leaf of ten slots: three overlap, two are joined into one read of five slots. -/
theorem merged_segments_ten :
    mergeInternals (some 5) [(9, 10), (1, 3), (5, 7), (0, 2), (1, 2)] = [(0, 3), (5, 10)] ∧
      Segments 10 (some 5) [(9, 10), (1, 3), (5, 7), (0, 2), (1, 2)] [(0, 3), (5, 10)] := by
  have hmerge : mergeInternals (some 5) [(9, 10), (1, 3), (5, 7), (0, 2), (1, 2)] = [(0, 3), (5, 10)] := by decide
  refine ⟨hmerge, ?_⟩
  have h := merged_segments 10 (some 5) [(9, 10), (1, 3), (5, 7), (0, 2), (1, 2)] (by decide)
  rwa [hmerge] at h

end

end Chime
