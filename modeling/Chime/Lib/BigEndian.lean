import Mathlib.Data.List.Lex
import Mathlib.Algebra.Order.Ring.Nat
import Mathlib.Tactic.Ring

/-!
# Numbers spelled by digits

`value B ds` is the number that the digits `ds` spell in base `B`, the first one the most significant. A changed digit
changes the value by its weight (`value_set`). Digits below the base are in lexicographic order as their values are
(`value_lt_iff`), so that they are given by their number and their value (`value_inj`).
-/

namespace BigEndian

/-- The number that digits spell. -/
def value (B : Nat) (ds : List Nat) : Nat := ds.foldl (fun res d => res * B + d) 0

variable {B d i : Nat} {ds es : List Nat}

theorem foldl_eq {acc : Nat} : ds.foldl (fun res d => res * B + d) acc = acc * B ^ ds.length + value B ds := by
  induction ds generalizing acc with
  | nil => simp [value]
  | cons d ds ih =>
    rw [value, List.foldl_cons, List.foldl_cons, ih, ih, List.length_cons, pow_succ]
    ring

theorem value_cons : value B (d :: ds) = d * B ^ ds.length + value B ds := by
  rw [value, List.foldl_cons, foldl_eq, Nat.zero_mul, Nat.zero_add]

theorem value_lt (h : ∀ d ∈ ds, d < B) : value B ds < B ^ ds.length := by
  induction ds with
  | nil => exact Nat.one_pos
  | cons d ds ih =>
    have hd : d < B := h d List.mem_cons_self
    have hds := ih fun e he => h e (List.mem_cons_of_mem _ he)
    have hmul : (d + 1) * B ^ ds.length ≤ B * B ^ ds.length := Nat.mul_le_mul_right _ hd
    rw [value_cons, List.length_cons, pow_succ']
    rw [Nat.succ_mul] at hmul
    omega

/-- **One digit changed.** -/
theorem value_set (hi : i < ds.length) : value B (ds.set i d) + ds[i] * B ^ (ds.length - 1 - i) =
    value B ds + d * B ^ (ds.length - 1 - i) := by
  induction ds generalizing i with
  | nil => exact absurd hi (Nat.not_lt_zero i)
  | cons e ds ih =>
    cases i with
    | zero =>
      simp only [List.set_cons_zero, value_cons, List.getElem_cons_zero, List.length_cons, Nat.add_sub_cancel,
        Nat.sub_zero]
      omega
    | succ i =>
      have hlt : i < ds.length := Nat.lt_of_succ_lt_succ hi
      have hexp : (e :: ds).length - 1 - (i + 1) = ds.length - 1 - i := by
        rw [List.length_cons]
        omega
      have := ih hlt
      rw [hexp, List.set_cons_succ, value_cons, value_cons, List.length_set, List.getElem_cons_succ]
      omega

/-- **The lexicographic order** is the order of the values. -/
theorem value_lt_iff (hlen : ds.length = es.length) (hds : ∀ d ∈ ds, d < B) (hes : ∀ e ∈ es, e < B) :
    value B ds < value B es ↔ ds < es := by
  induction ds generalizing es with
  | nil =>
    cases es with
    | nil => simp
    | cons e es => cases hlen
  | cons d ds ih =>
    cases es with
    | nil => cases hlen
    | cons e es =>
      have hlen' : ds.length = es.length := Nat.succ.inj hlen
      have hds' : ∀ d ∈ ds, d < B := fun x hx => hds x (List.mem_cons_of_mem _ hx)
      have hes' : ∀ e ∈ es, e < B := fun x hx => hes x (List.mem_cons_of_mem _ hx)
      have hd := value_lt hds'
      have he := value_lt hes'
      rw [value_cons, value_cons, hlen', List.cons_lt_cons_iff, ← ih hlen' hds' hes']
      rw [hlen'] at hd
      rcases Nat.lt_trichotomy d e with hlt | rfl | hgt
      · have hmul : (d + 1) * B ^ es.length ≤ e * B ^ es.length := Nat.mul_le_mul_right _ hlt
        rw [Nat.succ_mul] at hmul
        exact iff_of_true (by omega) (.inl hlt)
      · simp
      · have hmul : (e + 1) * B ^ es.length ≤ d * B ^ es.length := Nat.mul_le_mul_right _ hgt
        rw [Nat.succ_mul] at hmul
        exact iff_of_false (by omega) (by omega)

/-- Digits are given by their value. -/
theorem value_inj (hlen : ds.length = es.length) (hds : ∀ d ∈ ds, d < B) (hes : ∀ e ∈ es, e < B)
    (h : value B ds = value B es) : ds = es := by
  refine le_antisymm (not_lt.1 fun hlt => ?_) (not_lt.1 fun hlt => ?_)
  · exact absurd ((value_lt_iff hlen.symm hes hds).2 hlt) (by omega)
  · exact absurd ((value_lt_iff hlen hds hes).2 hlt) (by omega)

end BigEndian
