import Mathlib.Init

/-!
# Addition in separate fields of a bit vector

A mask has the last bit of every field. `fieldAdd` adds bit by bit and lets no carry out of a field. With one boundary
it is the addition of the bit vectors exactly if there is no carry over it (`fieldAdd_twoPow_eq_add_iff`).
-/

namespace FieldAdd

open BitVec

variable {w : Nat}

/-- The carry into bit `i`; there is none into the first bit of a field. -/
def fieldCarry (ends x y : BitVec w) : Nat → Bool
  | 0 => false
  | i + 1 => !ends.getLsbD i && Bool.atLeastTwo (x.getLsbD i) (y.getLsbD i) (fieldCarry ends x y i)

/-- The sums of the fields; a field ends at a bit of `ends`. -/
def fieldAdd (ends x y : BitVec w) : BitVec w :=
  (iunfoldr (fun i carry =>
    (!ends.getLsbD i && Bool.atLeastTwo (x.getLsbD i) (y.getLsbD i) carry,
      x.getLsbD i ^^ (y.getLsbD i ^^ carry))) false).2

variable {ends x y : BitVec w} {i b : Nat}

theorem getLsbD_fieldAdd (hi : i < w) :
    (fieldAdd ends x y).getLsbD i = (x.getLsbD i ^^ (y.getLsbD i ^^ fieldCarry ends x y i)) :=
  iunfoldr_getLsbD (fieldCarry ends x y) ⟨i, hi⟩ fun _ => rfl

/-- The addition in fields is the addition if the carries are the same. -/
theorem fieldAdd_eq_add_iff : fieldAdd ends x y = x + y ↔ ∀ i < w, fieldCarry ends x y i = carry i x y false := by
  constructor
  · intro h i hi
    have hbit := congrArg (fun v => v.getLsbD i) h
    simp only [getLsbD_fieldAdd hi, getLsbD_add hi] at hbit
    simpa using hbit
  · intro h
    refine eq_of_getLsbD_eq fun i hi => ?_
    rw [getLsbD_fieldAdd hi, getLsbD_add hi, h i hi]

/-- Up to its end, a field has the carries of the addition. -/
theorem fieldCarry_of_le (h : i ≤ b) : fieldCarry (twoPow w b) x y i = carry i x y false := by
  induction i with
  | zero => simp [fieldCarry]
  | succ i ih =>
    have hend : (twoPow w b).getLsbD i = false := by
      rw [getLsbD_twoPow]
      have : b ≠ i := by omega
      simp [this]
    rw [fieldCarry, hend, carry_succ, ih (by omega)]
    rfl

/-- **One boundary**: the fields add up to the sum if there is no carry out of the lower one. -/
theorem fieldAdd_twoPow_eq_add_iff :
    fieldAdd (twoPow w b) x y = x + y ↔ b + 1 < w → carry (b + 1) x y false = false := by
  have hend : b < w → (twoPow w b).getLsbD b = true := fun hb => by rw [getLsbD_twoPow]; simp [hb]
  rw [fieldAdd_eq_add_iff]
  constructor
  · intro h hb
    rw [← h (b + 1) hb, fieldCarry, hend (by omega)]
    rfl
  · intro h i hi
    by_cases hib : i ≤ b
    · exact fieldCarry_of_le hib
    · -- above the boundary both begin without a carry
      induction i with
      | zero => exact absurd (Nat.zero_le b) hib
      | succ i ih =>
        by_cases hib' : i = b
        · subst hib'
          rw [fieldCarry, hend (by omega), h hi]
          rfl
        · have hnot : (twoPow w b).getLsbD i = false := by
            rw [getLsbD_twoPow]
            have : b ≠ i := fun h => hib' h.symm
            simp [this]
          rw [fieldCarry, hnot, carry_succ, ih (by omega) (by omega)]
          rfl

end FieldAdd
