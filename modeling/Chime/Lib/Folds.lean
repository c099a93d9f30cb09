import Mathlib.Order.Filter.AtTopBot.Basic

/-!
# Folds that may fail

A fold over `Option` keeps an invariant of its steps, and each element leaves behind what its step establishes
(`foldlM_establishes`). A fold whose steps have fuel succeeds from some fuel on, if every step does
(`eventually_foldlM`).
-/

namespace Fold

open Filter

variable {σ α : Type} {I : σ → Prop} {l : List α} {s s' : σ}

/-- What the step of an element establishes holds at the end, if the other steps keep it. -/
theorem foldlM_establishes {f : σ → α → Option σ} {C : α → σ → Prop}
    (hf : ∀ a ∈ l, ∀ s s', I s → f s a = some s' → I s' ∧ C a s' ∧ ∀ b, C b s → C b s') (hs : I s)
    (h : l.foldlM f s = some s') : I s' ∧ (∀ a ∈ l, C a s') ∧ ∀ b, C b s → C b s' := by
  induction l generalizing s with
  | nil =>
    cases h
    exact ⟨hs, List.forall_mem_nil _, fun _ hb => hb⟩
  | cons a l ih =>
    rw [List.foldlM_cons] at h
    obtain ⟨s₁, h₁, h⟩ := Option.bind_eq_some_iff.1 h
    obtain ⟨hs₁, ha, hkeep⟩ := hf a List.mem_cons_self s s₁ hs h₁
    obtain ⟨hs', hl, hkeep'⟩ := ih (fun b hb => hf b (List.mem_cons_of_mem _ hb)) hs₁ h
    refine ⟨hs', fun b hb => ?_, fun b hb => hkeep' b (hkeep b hb)⟩
    rcases List.mem_cons.1 hb with rfl | hb
    · exact hkeep' b ha
    · exact hl b hb

/-- **Fuel**: the fold has the same result from some fuel on. -/
theorem eventually_foldlM {f : ℕ → σ → α → Option σ}
    (hf : ∀ a ∈ l, ∀ s, I s → ∃ s', I s' ∧ ∀ᶠ n in atTop, f n s a = some s') (hs : I s) :
    ∃ s', I s' ∧ ∀ᶠ n in atTop, l.foldlM (f n) s = some s' := by
  induction l generalizing s with
  | nil => exact ⟨s, hs, .of_forall fun _ => rfl⟩
  | cons a l ih =>
    obtain ⟨s₁, hs₁, h₁⟩ := hf a List.mem_cons_self s hs
    obtain ⟨s', hs', h'⟩ := ih (fun b hb => hf b (List.mem_cons_of_mem _ hb)) hs₁
    refine ⟨s', hs', ?_⟩
    filter_upwards [h₁, h'] with n h₁ h'
    rw [List.foldlM_cons, h₁]
    exact h'

end Fold
