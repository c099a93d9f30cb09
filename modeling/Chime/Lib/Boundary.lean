import Mathlib.Data.Nat.Find
import Mathlib.Logic.Function.Basic
import Mathlib.Order.Lattice

/-!
# Boundaries that cut an ordered range

A directory `d` tells what begins at a boundary; all boundaries lie below an upper end. `Next d top l h`: `h` is the
next boundary after `l`, or the upper end. The ranges between boundaries are disjoint (`Next.disjoint`). A new boundary
inside of a range cuts it in two (`Next.cutLeft`, `Next.cutRight`) and leaves the other ranges as they are
(`Next.cutOff`). Between numbers every boundary but the first one is the end of a range (`Next.exists_prev`).
-/

namespace Boundary

variable {K A : Type} [LinearOrder K]

/-- All boundaries are below the upper end. -/
def Below (d : K → Option A) (top : K) : Prop := ∀ k a, d k = some a → k < top

/-- `d'` has the boundaries of `d`, and perhaps more. -/
def Extends (d d' : K → Option A) : Prop := ∀ k a, d k = some a → d' k = some a

/-- `h` is the next boundary after `l`, or the upper end. -/
structure Next (d : K → Option A) (top l h : K) : Prop where
  lt : l < h
  bound : h = top ∨ ∃ a, d h = some a
  free : ∀ k, l < k → k < h → d k = none

variable {d : K → Option A} {top k l l' h h' : K} {a b : A}

omit [LinearOrder K] in
theorem Extends.refl (d : K → Option A) : Extends d d := fun _ _ h => h

theorem Extends.cut (hk : d k = none) : Extends d (Function.update d k (some a)) := by
  intro j b hj
  have hne : j ≠ k := by
    rintro rfl
    cases hj.symm.trans hk
  rwa [Function.update_of_ne hne]

namespace Next

/-- Every later boundary is at or after the next one. -/
theorem le (hn : Next d top l h) (hk : d k = some a) (hlk : l < k) : h ≤ k := by
  by_contra hkh
  cases (hn.free k hlk (not_le.1 hkh)).symm.trans hk

theorem le_top (hb : Below d top) (hn : Next d top l h) : h ≤ top := by
  rcases hn.bound with rfl | ⟨a, ha⟩
  · exact le_rfl
  · exact (hb h a ha).le

theorem le_of_next (hb : Below d top) (hn : Next d top l h) (hn' : Next d top l' h') (hl : l < h') : h ≤ h' := by
  rcases hn'.bound with rfl | ⟨a, ha⟩
  · exact hn.le_top hb
  · exact hn.le ha hl

theorem unique (hb : Below d top) (hn : Next d top l h) (hn' : Next d top l h') : h = h' :=
  le_antisymm (hn.le_of_next hb hn' hn'.lt) (hn'.le_of_next hb hn hn.lt)

/-- A boundary at or below a key of the range is at or below its beginning. -/
theorem le_of_mem (hn : Next d top l h) (ha : d l' = some a) (hk : l' ≤ k) (hkh : k < h) : l' ≤ l := by
  by_contra hl
  exact absurd (hn.le ha (not_le.1 hl)) (not_le.2 (hk.trans_lt hkh))

/-- **The ranges are disjoint.** -/
theorem disjoint (hn : Next d top l h) (hn' : Next d top l' h') (ha : d l = some a) (hb : d l' = some b) (hl : l ≤ k)
    (hh : k < h) (hl' : l' ≤ k) (hh' : k < h') : l = l' :=
  le_antisymm (hn'.le_of_mem ha hl hh') (hn.le_of_mem hb hl' hh)

/-- A new boundary ends the range on its left. -/
theorem cutLeft (hn : Next d top l h) (hl : l < k) (hk : k < h) : Next (Function.update d k (some a)) top l k where
  lt := hl
  bound := .inr ⟨a, Function.update_self ..⟩
  free := fun j h1 h2 => by rw [Function.update_of_ne h2.ne, hn.free j h1 (h2.trans hk)]

/-- A new boundary begins the range on its right. -/
theorem cutRight (hn : Next d top l h) (hl : l < k) (hk : k < h) : Next (Function.update d k (some a)) top k h where
  lt := hk
  bound := hn.bound.imp_right fun ⟨b, hb⟩ => ⟨b, by rwa [Function.update_of_ne hk.ne']⟩
  free := fun j h1 h2 => by rw [Function.update_of_ne h1.ne', hn.free j (hl.trans h1) h2]

/-- A new boundary leaves the other ranges. -/
theorem cutOff (hn : Next d top l h) (hl : l < k) (hk : k < h) (hn' : Next d top l' h') (ha : d l = some a)
    (hb : d l' = some b) (hne : l' ≠ l) {c : A} : Next (Function.update d k (some c)) top l' h' where
  lt := hn'.lt
  bound := hn'.bound.imp_right fun ⟨b, hb⟩ => ⟨b, Extends.cut (hn.free k hl hk) _ _ hb⟩
  free := fun j h1 h2 => by
    have hjk : j ≠ k := by
      rintro rfl
      exact hne (hn'.disjoint hn hb ha h1.le h2 hl.le hk)
    rw [Function.update_of_ne hjk, hn'.free j h1 h2]

/-- A boundary after another one has a boundary before it. -/
theorem exists_prev {d : ℕ → Option A} (top : ℕ) {l h : ℕ} {a b : A} (hl : d l = some a) (hh : d h = some b)
    (hlt : l < h) :
    ∃ j c, d j = some c ∧ Next d top j h := by
  have hex : (d l).isSome = true := by rw [hl]; rfl
  have hspec := Nat.findGreatest_spec (P := fun j => (d j).isSome = true) (show l ≤ h - 1 by omega) hex
  obtain ⟨c, hc⟩ := Option.isSome_iff_exists.1 hspec
  have hle := Nat.findGreatest_le (P := fun j => (d j).isSome = true) (h - 1)
  refine ⟨_, c, hc, by omega, .inr ⟨b, hh⟩, fun k h1 h2 => ?_⟩
  have := Nat.findGreatest_is_greatest h1 (show k ≤ h - 1 by omega)
  simpa using this

end Next
end Boundary
