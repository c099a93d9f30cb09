import Mathlib.Data.Fin.Basic
import Mathlib.Data.Int.Basic
import Mathlib.Logic.Function.Basic
import Mathlib.Tactic.Linarith

/-!
# Slots of a circular table

A table of `n` slots is addressed by *logical* indices `i : Int`, taken modulo `n` (`slot`). Any `n` consecutive
logical indices name different slots (`slot_inj`), and `gap s t` is the number of steps from slot `s` forward to slot
`t` (`slot_add_gap`, `gap_slot`).

A ring that is written place by place, again and again, keeps the end of the list of what was written (`Keeps.push`).
-/

namespace Cyclic

variable {n : Nat} [NeZero n]

theorem pos_int : (0 : Int) < n := by
  have := NeZero.pos n
  omega

/-- The slot named by a logical index. -/
def slot (n : Nat) [NeZero n] (i : Int) : Fin n :=
  ⟨(i % n).toNat, by
    have h := Int.emod_lt_of_pos i (pos_int (n := n))
    have h' := Int.emod_nonneg i (show (n : Int) ≠ 0 by have := NeZero.pos n; omega)
    omega⟩

/-- The number of steps from slot `s` forward to slot `t`. -/
def gap (s t : Fin n) : Nat := (t.val + n - s.val) % n

theorem slot_val_int (i : Int) : ((slot n i).val : Int) = i % n := by
  have h' := Int.emod_nonneg i (show (n : Int) ≠ 0 by have := NeZero.pos n; omega)
  simp only [slot]
  omega

theorem slot_eq_iff {i j : Int} : slot n i = slot n j ↔ i % n = j % n := by
  rw [Fin.ext_iff, ← slot_val_int, ← slot_val_int]
  omega

/-- Two logical indices of one window that name the same slot are equal. -/
theorem slot_inj {a i j : Int} (hi : a ≤ i ∧ i < a + n) (hj : a ≤ j ∧ j < a + n) (h : slot n i = slot n j) : i = j := by
  have hd : (n : Int) ∣ i - j := Int.emod_eq_emod_iff_emod_sub_eq_zero.1 (slot_eq_iff.1 h) |> Int.dvd_of_emod_eq_zero
  obtain ⟨c, hc⟩ := hd
  have hn := pos_int (n := n)
  have h1 : c < 1 := by
    by_contra hge
    have : (n : Int) * 1 ≤ n * c := Int.mul_le_mul_of_nonneg_left (by omega) (by omega)
    omega
  have h2 : -1 < c := by
    by_contra hge
    have : (n : Int) * c ≤ n * (-1) := Int.mul_le_mul_of_nonneg_left (by omega) (by omega)
    omega
  have : c = 0 := by omega
  subst this
  omega

theorem slot_ne {a i j : Int} (hi : a ≤ i ∧ i < a + n) (hj : a ≤ j ∧ j < a + n) (h : i ≠ j) : slot n i ≠ slot n j :=
  fun he => h (slot_inj hi hj he)

@[simp] theorem slot_coe (s : Fin n) : slot n (s.val : Int) = s := by
  apply Fin.ext
  have : (((slot n (s.val : Int)).val : Nat) : Int) = s.val := by
    rw [slot_val_int]
    exact Int.emod_eq_of_lt (by omega) (by have := s.isLt; omega)
  exact_mod_cast this

@[simp] theorem slot_add_self (i : Int) : slot n (i + n) = slot n i := by
  rw [slot_eq_iff, Int.add_emod_right]

/-- Shifting the base of a sum inside its slot. -/
theorem slot_add_congr {i j d : Int} (h : slot n i = slot n j) : slot n (i + d) = slot n (j + d) := by
  rw [slot_eq_iff] at h ⊢
  rw [Int.add_emod, h, ← Int.add_emod]

theorem gap_lt (s t : Fin n) : gap s t < n := Nat.mod_lt _ (NeZero.pos n)

/-- Walking `gap s t` steps from `s` reaches `t`. -/
@[simp] theorem slot_add_gap (s t : Fin n) : slot n (s.val + gap s t) = t := by
  conv => rhs; rw [← slot_coe t, ← slot_add_self]
  rw [slot_eq_iff, gap]
  push_cast
  rw [Int.add_emod_emod]
  congr 1
  have := s.isLt
  omega

/-- The number of steps is determined by where they lead. -/
theorem gap_eq_of_slot {i : Int} {d : Nat} {t : Fin n} (hd : d < n) (h : slot n (i + d) = t) :
    gap (slot n i) t = d := by
  have hs : slot n (i + gap (slot n i) t) = t := by
    conv => rhs; rw [← slot_add_gap (slot n i) t]
    exact slot_add_congr (slot_coe (slot n i)).symm
  have := slot_inj (a := i) (i := i + gap (slot n i) t) (j := i + d)
    ⟨by omega, by have := gap_lt (slot n i) t; omega⟩ ⟨by omega, by omega⟩ (hs.trans h.symm)
  omega

theorem gap_slot {i : Int} {d : Nat} (hd : d < n) : gap (slot n i) (slot n (i + d)) = d := gap_eq_of_slot hd rfl

/-- Walking back `gap s t` steps from a logical index of `t` reaches `s`. -/
theorem slot_sub_gap {i : Int} {s t : Fin n} (h : slot n i = t) : slot n (i - gap s t) = s := by
  have h' : slot n (s.val + gap s t) = slot n i := (slot_add_gap s t).trans h.symm
  have := slot_add_congr (d := -(gap s t : Int)) h'
  rw [show ((s.val : Int) + gap s t + -(gap s t : Int)) = s.val by omega, slot_coe] at this
  rw [Int.sub_eq_add_neg]
  exact this.symm

theorem gap_inj {s t u : Fin n} (h : gap s t = gap s u) : t = u := by
  rw [← slot_add_gap s t, h, slot_add_gap]

omit [NeZero n] in
@[simp] theorem gap_self (s : Fin n) : gap s s = 0 := by
  rw [gap, Nat.add_sub_cancel_left, Nat.mod_self]

omit [NeZero n] in
/-- The wrapped difference of two slot numbers, as code computes it with one test. -/
theorem gap_eq_ite (s t : Fin n) : gap s t = if s.val ≤ t.val then t.val - s.val else t.val + n - s.val := by
  have hs := s.isLt
  have ht := t.isLt
  rw [gap]
  split
  · rw [show t.val + n - s.val = t.val - s.val + n by omega, Nat.add_mod_right]
    exact Nat.mod_eq_of_lt (by omega)
  · exact Nat.mod_eq_of_lt (by omega)

/-! ## Rings that keep the end of a list -/

section Ring

variable {α : Type} {m lo lo' : Nat} {ring : Nat → Option α} {xs : List α}

/-- Entry `k` of the list stands at place `k % m` of the ring, from `lo` on. -/
def Keeps (m : Nat) (ring : Nat → Option α) (xs : List α) (lo : Nat) : Prop :=
  ∀ k, lo ≤ k → k < xs.length → ring (k % m) = xs[k]?

/-- Numbers that are fewer than `m` apart have different places. -/
theorem mod_ne_mod {i j : Nat} (hij : i < j) (hlt : j < i + m) : i % m ≠ j % m := by
  intro he
  have hd : m ∣ j - i := Nat.dvd_of_mod_eq_zero (Nat.sub_mod_eq_zero_of_mod_eq he.symm)
  have := Nat.eq_zero_of_dvd_of_lt hd (by omega)
  omega

theorem Keeps.mono (h : Keeps m ring xs lo) (hlo : lo ≤ lo') : Keeps m ring xs lo' :=
  fun k hk => h k (hlo.trans hk)

/-- The next entry is written over one that need not be kept. -/
theorem Keeps.push (h : Keeps m ring xs lo) (hlt : xs.length < lo + m) (x : α) :
    Keeps m (Function.update ring (xs.length % m) (some x)) (xs ++ [x]) lo := by
  intro k hk hlen
  rw [List.length_append, List.length_singleton] at hlen
  rcases Nat.lt_or_ge k xs.length with hold | hnew
  · rw [Function.update_of_ne (mod_ne_mod hold (by omega)), h k hk hold, List.getElem?_append_left hold]
  · obtain rfl : k = xs.length := by omega
    rw [Function.update_self, List.getElem?_concat_length]

end Ring

end Cyclic
