import Mathlib.Logic.Equiv.Basic
import Mathlib.Logic.Function.Basic
import Mathlib.Data.List.Nodup

/-!
# Shifting values along a path

`shift f j hs` is the family `f` after the value at the first place of `hs` was copied to `j`, the value at the second
place to the first one, and so on; the last place of `j :: hs` keeps its old value.

* off the path nothing changes (`shift_off`), on it every place holds what the next place held (`shift_getElem`);
* overwriting the last place gives the old family, with `j` overwritten, up to a permutation (`exists_perm_shift`).
-/

namespace Shift

variable {ι α : Type} [DecidableEq ι] {f : ι → α} {j h s : ι} {hs : List ι} {a : α}

/-- Copy along a path that starts at `j`. -/
def shift (f : ι → α) (j : ι) : List ι → ι → α
  | [] => f
  | h :: hs => shift (Function.update f j (f h)) h hs

@[simp] theorem shift_nil : shift f j [] = f := rfl

@[simp] theorem shift_cons : shift f j (h :: hs) = shift (Function.update f j (f h)) h hs := rfl

/-- Nothing changes off the path. -/
theorem shift_off (hsj : s ∉ j :: hs) : shift f j hs s = f s := by
  induction hs generalizing f j with
  | nil => rfl
  | cons h hs ih =>
    rw [shift_cons, ih (List.not_mem_of_not_mem_cons hsj),
      Function.update_of_ne (List.ne_of_not_mem_cons hsj)]

/-- A place of the path holds what the next place held. -/
theorem shift_getElem (hn : (j :: hs).Nodup) {i : Nat} (hi : i < hs.length) (hi' : i < (j :: hs).length) :
    shift f j hs (j :: hs)[i] = f hs[i] := by
  induction hs generalizing f j i with
  | nil => simp at hi
  | cons h hs ih =>
    have hn' := List.nodup_cons.1 hn
    cases i with
    | zero =>
      rw [List.getElem_cons_zero, shift_cons, shift_off hn'.1, Function.update_self]
      rfl
    | succ i =>
      have hlt : i < hs.length := by simpa using hi
      have hne : hs[i] ≠ j := fun e => hn'.1 (e ▸ List.mem_cons_of_mem _ (List.getElem_mem hlt))
      rw [shift_cons, List.getElem_cons_succ, ih hn'.2 hlt (Nat.lt_succ_of_lt hlt), Function.update_of_ne hne]
      rfl

/-- A place of the path before the last one holds the value of another place. -/
theorem shift_to (hn : (j :: hs).Nodup) (hs' : s ∈ j :: hs) (hl : s ≠ (j :: hs).getLast (List.cons_ne_nil _ _)) :
    ∃ h ∈ hs, shift f j hs s = f h := by
  obtain ⟨i, hi, rfl⟩ := List.getElem_of_mem hs'
  have hlt : i < hs.length := by
    by_contra hge
    have hi' : i = (j :: hs).length - 1 := by simp at hi ⊢; omega
    subst hi'
    exact hl (List.getLast_eq_getElem _).symm
  exact ⟨hs[i], List.getElem_mem hlt, shift_getElem hn hlt _⟩

/-- The value of a place after the first one is found at an earlier place, which is not the last. -/
theorem shift_from (hn : (j :: hs).Nodup) (hh : h ∈ hs) :
    ∃ s ∈ j :: hs, s ≠ (j :: hs).getLast (List.cons_ne_nil _ _) ∧ shift f j hs s = f h := by
  obtain ⟨i, hi, rfl⟩ := List.getElem_of_mem hh
  have hi' : i < (j :: hs).length := by simp; omega
  refine ⟨(j :: hs)[i], List.getElem_mem _, fun he => ?_, shift_getElem hn hi hi'⟩
  rw [List.getLast_eq_getElem] at he
  have := (List.Nodup.getElem_inj_iff hn).1 he
  simp at this
  omega

/-- **Permutation**: overwriting the end of the path after the shift amounts to overwriting its start before it. -/
theorem exists_perm_shift (hn : (j :: hs).Nodup) :
    ∃ e : Equiv.Perm ι, ∀ s,
      Function.update (shift f j hs) ((j :: hs).getLast (List.cons_ne_nil _ _)) a s = Function.update f j a (e s) := by
  induction hs generalizing f j with
  | nil => exact ⟨Equiv.refl _, fun s => rfl⟩
  | cons h hs ih =>
    have hn' := List.nodup_cons.1 hn
    have hjh : j ≠ h := fun e => hn'.1 (e ▸ List.mem_cons_self)
    obtain ⟨e, he⟩ := ih hn'.2 (f := Function.update f j (f h))
    refine ⟨e.trans (Equiv.swap j h), fun s => ?_⟩
    rw [List.getLast_cons (List.cons_ne_nil _ _), shift_cons, he s, Equiv.trans_apply]
    rcases eq_or_ne (e s) j with hs | hs
    · simp [hs, hjh, hjh.symm]
    rcases eq_or_ne (e s) h with hs' | hs'
    · simp [hs']
    · rw [Equiv.swap_apply_of_ne_of_ne hs hs', Function.update_of_ne hs', Function.update_of_ne hs,
        Function.update_of_ne hs]

end Shift
