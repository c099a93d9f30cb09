import Mathlib.Data.List.Induction
import Mathlib.Data.List.Sort

/-!
# Insertion into a sorted array

An array is a list of its cells. `insert p xs num x` searches the first `num` cells for the first one with `p`, moves
the cells from there on one place to the right, from the last one on, and stores `x`: the first `num` cells get `x`
before the first cell with `p`, and one more cell is in use (`insert_append`). The second part says how an insertion
into a sorted list goes through a cut of the list at one of its elements.
-/

namespace SortedArray

variable {α : Type}

/-- The loop `for (j = l + c - 1; j >= l; --j) xs[j + 1] = xs[j]`. -/
def shiftRight (xs : List α) (l : Nat) : Nat → List α
  | 0 => xs
  | c + 1 =>
    match xs[l + c]? with
    | none => xs
    | some x => shiftRight (xs.set (l + c + 1) x) l c

/-- The first of the first `num` cells with `p`, or `num`. -/
def insertPos (p : α → Bool) (xs : List α) (num : Nat) : Nat := (xs.take num).findIdx p

/-- Shift and insert. -/
def insert (p : α → Bool) (xs : List α) (num : Nat) (x : α) : List α :=
  let idx := insertPos p xs num
  (shiftRight xs idx (num - idx)).set idx x

theorem length_shiftRight (l c : Nat) (xs : List α) : (shiftRight xs l c).length = xs.length := by
  induction c generalizing xs with
  | zero => rfl
  | succ c ih =>
    rw [shiftRight]
    split
    · rfl
    · rw [ih, List.length_set]

theorem length_insert (p : α → Bool) (xs : List α) (num : Nat) (x : α) : (insert p xs num x).length = xs.length := by
  rw [insert, List.length_set, length_shiftRight]

/-- The shift frees the first cell of the moved part, and takes the cell after it. -/
theorem shiftRight_append (l s post : List α) (z : α) :
    ∃ y, shiftRight (l ++ s ++ z :: post) l.length s.length = l ++ y :: (s ++ post) := by
  induction s using List.reverseRecOn generalizing z post with
  | nil => exact ⟨z, by rw [List.append_nil]; rfl⟩
  | append_singleton s x ih =>
    have hget : (l ++ (s ++ [x]) ++ z :: post)[l.length + s.length]? = some x := by simp
    have hset : (l ++ (s ++ [x]) ++ z :: post).set (l.length + s.length + 1) x = l ++ s ++ x :: (x :: post) := by
      have hlen : (l ++ s ++ [x]).length = l.length + s.length + 1 := by
        rw [List.length_append, List.length_append, List.length_singleton]
      rw [← List.append_assoc, ← hlen, List.set_append_right _ _ le_rfl, Nat.sub_self, List.set_cons_zero]
      simp
    obtain ⟨y, hy⟩ := ih (x :: post) x
    refine ⟨y, ?_⟩
    rw [List.length_append, List.length_singleton, shiftRight, hget]
    simp only [hset, hy]
    simp

/-- **Insertion**: the cells in use get `x` before the first one with `p`, and the next cell is overwritten. -/
theorem insert_append (p : α → Bool) (xs post : List α) (z x : α) :
    insert p (xs ++ z :: post) xs.length x =
      xs.takeWhile (fun a => !p a) ++ x :: xs.dropWhile (fun a => !p a) ++ post := by
  have hpos : insertPos p (xs ++ z :: post) xs.length = (xs.takeWhile fun a => !p a).length := by
    rw [insertPos, List.take_left, List.takeWhile_eq_take_findIdx_not, List.length_take]
    simp only [Bool.not_not]
    exact (Nat.min_eq_left List.findIdx_le_length).symm
  have hlen : xs.length - (xs.takeWhile fun a => !p a).length = (xs.dropWhile fun a => !p a).length := by
    have := congrArg List.length (List.takeWhile_append_dropWhile (p := fun a => !p a) (l := xs))
    rw [List.length_append] at this
    omega
  obtain ⟨y, hy⟩ := shiftRight_append (xs.takeWhile fun a => !p a) (xs.dropWhile fun a => !p a) post z
  rw [List.takeWhile_append_dropWhile] at hy
  simp only [insert, hpos, hlen, hy]
  rw [List.set_append_right _ _ le_rfl, Nat.sub_self, List.set_cons_zero]
  simp

section Ordered

variable (r : α → α → Prop) [DecidableRel r] {x e : α}

/-- What belongs before `e` is inserted into the part before `e`. -/
theorem orderedInsert_left (h : r x e) (l s : List α) :
    (l ++ e :: s).orderedInsert r x = l.orderedInsert r x ++ e :: s := by
  induction l with
  | nil => simp [h]
  | cons a l ih =>
    simp only [List.cons_append, List.orderedInsert_cons]
    split
    · rfl
    · rw [ih, List.cons_append]

/-- What belongs after `e` is inserted into the part after `e`. -/
theorem orderedInsert_right (h : ¬r x e) {l : List α} (hl : ∀ a ∈ l, ¬r x a) (s : List α) :
    (l ++ e :: s).orderedInsert r x = l ++ e :: s.orderedInsert r x := by
  induction l with
  | nil => simp [h]
  | cons a l ih =>
    rw [List.cons_append, List.orderedInsert_cons, if_neg (hl a List.mem_cons_self),
      ih fun b hb => hl b (List.mem_cons_of_mem _ hb)]
    rfl

end Ordered

end SortedArray
