import Mathlib.Algebra.BigOperators.Group.Finset.Piecewise
import Mathlib.Algebra.Order.BigOperators.Group.Finset
import Mathlib.Data.Finset.Card
import Mathlib.Data.Finset.Range
import Mathlib.Logic.Equiv.Basic

/-!
# Things with exactly one holder

A holder has one thing or none. The things are `ExactlyHeld` if the live ones are those that are held, each by one
holder. They stay so when holders pass things on (`transfer`, `exchange`), and when a thing comes into being or goes at
a holder (`acquire`, `release`). `census` counts the holders in a state with a property.
-/

/-- What is live is held, by one holder. -/
structure ExactlyHeld {ι α : Type} (held : ι → Option α) (live : α → Prop) : Prop where
  isLive : ∀ {i a}, held i = some a → live a
  holder : ∀ {a}, live a → ∃ i, held i = some a
  one : ∀ {i j a}, held i = some a → held j = some a → i = j

namespace ExactlyHeld

variable {ι κ α : Type} {held : ι → Option α} {held' : κ → Option α} {live : α → Prop} {i j : ι} {a : α}

/-- A live thing has one holder, what is not live has none. -/
theorem existsUnique_iff (h : ExactlyHeld held live) (a : α) : live a ↔ ∃! i, held i = some a := by
  constructor
  · intro ha
    obtain ⟨i, hi⟩ := h.holder ha
    exact ⟨i, hi, fun j hj => h.one hj hi⟩
  · rintro ⟨i, hi, -⟩
    exact h.isLive hi

theorem of_iff {live' : α → Prop} (h : ExactlyHeld held live) (hl : ∀ a, live' a ↔ live a) :
    ExactlyHeld held live' where
  isLive hi := (hl _).2 (h.isLive hi)
  holder ha := h.holder ((hl _).1 ha)
  one := h.one

/-- Each holder has its thing from one before, different holders from different ones, and nothing is dropped. -/
theorem transfer (h : ExactlyHeld held live) (f : κ → ι) (hfrom : ∀ k a, held' k = some a → held (f k) = some a)
    (hinj : ∀ j k a, held' j = some a → held' k = some a → f j = f k → j = k)
    (hall : ∀ i a, held i = some a → ∃ k, held' k = some a) : ExactlyHeld held' live where
  isLive hk := h.isLive (hfrom _ _ hk)
  holder ha := by
    obtain ⟨i, hi⟩ := h.holder ha
    exact hall i _ hi
  one hj hk := hinj _ _ _ hj hk (h.one (hfrom _ _ hj) (hfrom _ _ hk))

/-- Two holders exchange what they have. -/
theorem exchange [DecidableEq ι] (h : ExactlyHeld held live) (i j : ι) : ExactlyHeld (held ∘ Equiv.swap i j) live :=
  h.transfer (Equiv.swap i j) (fun _ _ hk => hk) (fun _ _ _ _ _ he => (Equiv.swap i j).injective he)
    fun k a hk => ⟨Equiv.swap i j k, by rwa [Function.comp_apply, Equiv.swap_apply_self]⟩

/-- A thing comes into being. -/
theorem acquire [DecidableEq ι] (h : ExactlyHeld held live) (hi : held i = none) (ha : ¬live a) :
    ExactlyHeld (Function.update held i (some a)) fun b => b = a ∨ live b := by
  have hcases : ∀ {j b}, Function.update held i (some a) j = some b → (j = i ∧ b = a) ∨ (j ≠ i ∧ held j = some b) := by
    intro j b hj
    rcases eq_or_ne j i with rfl | hji
    · rw [Function.update_self] at hj
      exact .inl ⟨rfl, (Option.some.inj hj).symm⟩
    · rw [Function.update_of_ne hji] at hj
      exact .inr ⟨hji, hj⟩
  constructor
  · intro j b hj
    rcases hcases hj with ⟨-, hb⟩ | ⟨-, hb⟩
    · exact .inl hb
    · exact .inr (h.isLive hb)
  · rintro b (rfl | hb)
    · exact ⟨i, Function.update_self ..⟩
    · obtain ⟨j, hj⟩ := h.holder hb
      have hji : j ≠ i := by
        rintro rfl
        rw [hi] at hj
        cases hj
      exact ⟨j, (Function.update_of_ne hji ..).trans hj⟩
  · intro j k b hj hk
    rcases hcases hj with ⟨rfl, rfl⟩ | ⟨-, hj'⟩ <;> rcases hcases hk with ⟨rfl, hb⟩ | ⟨-, hk'⟩
    · rfl
    · exact absurd (h.isLive hk') ha
    · exact absurd (h.isLive hj') (hb ▸ ha)
    · exact h.one hj' hk'

/-- A thing goes. -/
theorem release [DecidableEq ι] (h : ExactlyHeld held live) (hi : held i = some a) :
    ExactlyHeld (Function.update held i none) fun b => b ≠ a ∧ live b := by
  have hcases : ∀ {j b}, Function.update held i none j = some b → j ≠ i ∧ held j = some b := by
    intro j b hj
    rcases eq_or_ne j i with rfl | hji
    · rw [Function.update_self] at hj
      cases hj
    · rw [Function.update_of_ne hji] at hj
      exact ⟨hji, hj⟩
  constructor
  · intro j b hj
    obtain ⟨hji, hj⟩ := hcases hj
    refine ⟨?_, h.isLive hj⟩
    rintro rfl
    exact hji (h.one hj hi)
  · rintro b ⟨hne, hb⟩
    obtain ⟨j, hj⟩ := h.holder hb
    have hji : j ≠ i := by
      rintro rfl
      exact hne (Option.some.inj (hj.symm.trans hi))
    exact ⟨j, (Function.update_of_ne hji ..).trans hj⟩
  · intro j k b hj hk
    exact h.one (hcases hj).2 (hcases hk).2

end ExactlyHeld

/-- How many of the first `n` holders are in a state with `P`. -/
def census {β : Type} (n : Nat) (P : β → Bool) (state : Nat → β) : Nat :=
  ((Finset.range n).filter fun t => P (state t) = true).card

section Census

variable {β : Type} {n t : Nat} {P : β → Bool} {state : Nat → β} {x : β}

theorem census_le : census n P state ≤ n := (Finset.card_filter_le _ _).trans_eq (Finset.card_range n)

theorem census_update (ht : t < n) : census n P (Function.update state t x) + (P (state t)).toNat =
    census n P state + (P x).toNat := by
  have hcount : ∀ f : Nat → β, census n P f = (P (f t)).toNat + ∑ i ∈ (Finset.range n).erase t, (P (f i)).toNat := by
    intro f
    rw [Finset.add_sum_erase _ (fun i => (P (f i)).toNat) (Finset.mem_range.2 ht), census, Finset.card_filter]
    exact Finset.sum_congr rfl fun i _ => by cases P (f i) <;> rfl
  have hrest : ∑ i ∈ (Finset.range n).erase t, (P (Function.update state t x i)).toNat =
      ∑ i ∈ (Finset.range n).erase t, (P (state i)).toNat :=
    Finset.sum_congr rfl fun i hi => by rw [Function.update_of_ne (Finset.ne_of_mem_erase hi)]
  rw [hcount, hcount state, hrest, Function.update_self]
  omega

theorem census_pos (ht : t < n) (hP : P (state t) = true) : 0 < census n P state :=
  Finset.card_pos.2 ⟨t, Finset.mem_filter.2 ⟨Finset.mem_range.2 ht, hP⟩⟩

theorem census_eq_zero (h : ∀ t < n, P (state t) = false) : census n P state = 0 := by
  refine Finset.card_eq_zero.2 (Finset.filter_eq_empty_iff.2 fun t ht => ?_)
  rw [h t (Finset.mem_range.1 ht)]
  decide

end Census
