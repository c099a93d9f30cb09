import Mathlib.Init

/-!
# Guarded runs of a machine

A machine makes a step on an action, and a step emits events. `Run G` are its runs from the initial state whose actions
all meet the guard `G`, each with the history of its events, the newest first. `Run.invariant` is the rule for what
holds in every run, `Run.exact_guard` for a guard without which it fails, `Run.refines` for a machine that another one
matches, `Run.of_exec` makes a run of a list of actions. `Steps G` are the runs from another state on. A `Trace` of a
run keeps the states as well (`Trace.invariant`, `Trace.of_exec`). `exists_of_rank` is for what a run comes to,
`Steps.of_rank` for what it can be led to.
-/

/-- A machine with states `σ`, actions `α` and events `ε`. -/
structure Machine (σ α ε : Type) where
  init : σ
  /-- `none`: the action is not enabled -/
  step : σ → α → Option (σ × List ε)

namespace Machine

variable {σ α ε : Type} (M : Machine σ α ε)

/-- The runs whose actions meet the guard: the state reached and the events so far. -/
inductive Run (G : σ → α → Prop) : σ → List ε → Prop
  | init : Run G M.init []
  | step {s s' : σ} {h es : List ε} (a : α) : Run G s h → G s a → M.step s a = some (s', es) → Run G s' (es ++ h)

/-- The state and the history after a list of actions, from the left, if they all pass the check `g`. -/
def exec (g : σ → α → Bool) (s : σ) (h : List ε) : List α → Option (σ × List ε)
  | [] => some (s, h)
  | a :: as =>
    if g s a then
      match M.step s a with
      | none => none
      | some (s', es) => exec g s' (es ++ h) as
    else none

variable {M} {G : σ → α → Prop} {s : σ} {h : List ε}

/-- **Invariants**: what holds at the start and is kept by every guarded step holds in every guarded run. -/
theorem Run.invariant {I : σ → List ε → Prop} (hinit : I M.init [])
    (hstep : ∀ {s h a s' es}, M.Run G s h → I s h → G s a → M.step s a = some (s', es) → I s' (es ++ h))
    (hrun : M.Run G s h) : I s h := by
  induction hrun with
  | init => exact hinit
  | step a hr hg he ih => exact hstep hr ih hg he

/-- **Exact guards**: where a step keeps the invariant `I` if it meets the guard, and breaks the property `P` otherwise,
`P` holds in every guarded run, and a further step keeps it exactly if it meets the guard. -/
theorem Run.exact_guard {I P : σ → List ε → Prop} (hinit : I M.init []) (hP : ∀ {s h}, I s h → P s h)
    (hstep : ∀ {s h a s' es}, I s h → M.step s a = some (s', es) →
      (G s a ∧ I s' (es ++ h)) ∨ (¬G s a ∧ ¬P s' (es ++ h)))
    (hrun : M.Run G s h) : P s h ∧ ∀ a s' es, M.step s a = some (s', es) → (P s' (es ++ h) ↔ G s a) := by
  have hI : I s h := by
    refine hrun.invariant hinit ?_
    intro s h a s' es _ hI hguard he
    rcases hstep hI he with ⟨-, hI'⟩ | ⟨hno, -⟩
    · exact hI'
    · exact absurd hguard hno
  refine ⟨hP hI, fun a s' es he => ?_⟩
  rcases hstep hI he with ⟨hguard, hI'⟩ | ⟨hno, hbroken⟩
  · exact iff_of_true (hP hI') hguard
  · exact iff_of_false hbroken hno

/-- A weaker guard admits more runs. -/
theorem Run.mono {G' : σ → α → Prop} (hG : ∀ s a, G s a → G' s a) (hrun : M.Run G s h) : M.Run G' s h := by
  induction hrun with
  | init => exact .init
  | step a _ hg he ih => exact .step a ih (hG _ _ hg) he

/-- Checked execution extends a run, if the check implies the guard on a class `I` of states that it does not leave. -/
theorem Run.of_exec {I : σ → Prop} {g : σ → α → Bool} (hG : ∀ {s a}, I s → g s a = true → G s a)
    (hI : ∀ {s a s' es}, I s → g s a = true → M.step s a = some (s', es) → I s') {as : List α} :
    ∀ {s h s' h'}, I s → M.Run G s h → M.exec g s h as = some (s', h') → M.Run G s' h' := by
  induction as with
  | nil =>
    intro s h s' h' _ hrun he
    obtain ⟨rfl, rfl⟩ := Prod.mk.inj (Option.some.inj he)
    exact hrun
  | cons a as ih =>
    intro s h s' h' hs hrun he
    rw [exec] at he
    split at he
    · rename_i ha
      split at he
      · cases he
      · rename_i s₁ es hstep
        exact ih (hI hs ha hstep) (.step a hrun (hG hs ha) hstep) he
    · cases he

/-! ## Runs from a state -/

variable (M) in
/-- The guarded runs from a state and a history on. -/
inductive Steps (G : σ → α → Prop) (s : σ) (h : List ε) : σ → List ε → Prop
  | refl : Steps G s h s h
  | step {s₁ s₂ : σ} {h₁ es : List ε} (a : α) : Steps G s h s₁ h₁ → G s₁ a → M.step s₁ a = some (s₂, es) →
      Steps G s h s₂ (es ++ h₁)

/-- A run is one from the initial state. -/
theorem Run.from_init (hrun : M.Run G s h) : M.Steps G M.init [] s h := by
  induction hrun with
  | init => exact .refl
  | step a _ hg he ih => exact .step a ih hg he

theorem Steps.suffix {s' : σ} {h' : List ε} (hs : M.Steps G s h s' h') : h <:+ h' := by
  induction hs with
  | refl => exact List.suffix_rfl
  | step a _ _ _ ih => exact ih.trans (List.suffix_append _ _)

/-! ## Progress -/

/-- **Progress**: a place of a sequence that has a rank, and from which the next place has a lower one unless the goal
is reached, is followed by the goal. -/
theorem exists_of_rank {ρ : Type} {r : ρ → ρ → Prop} (hr : WellFounded r) {I : ρ → Nat → Prop} {Q : Nat → Prop}
    (hstep : ∀ x i, I x i → Q i ∨ ∃ y, r y x ∧ I y (i + 1)) : ∀ x i, I x i → ∃ n, i ≤ n ∧ Q n := by
  intro x
  induction x using hr.induction with
  | _ x ih =>
    intro i hi
    rcases hstep x i hi with hq | ⟨y, hy, hi'⟩
    · exact ⟨i, Nat.le_refl i, hq⟩
    · obtain ⟨n, hn, hq⟩ := ih y hy (i + 1) hi'
      exact ⟨n, Nat.le_of_succ_le hn, hq⟩

theorem Steps.trans {s' s'' : σ} {h' h'' : List ε} (hs : M.Steps G s h s' h') (hs' : M.Steps G s' h' s'' h'') :
    M.Steps G s h s'' h'' := by
  induction hs' with
  | refl => exact hs
  | step a _ hg he ih => exact .step a ih hg he

/-- A run goes on. -/
theorem Run.of_steps {s' : σ} {h' : List ε} (hrun : M.Run G s h) (hs : M.Steps G s h s' h') : M.Run G s' h' := by
  induction hs with
  | refl => exact hrun
  | step a _ hg he ih => exact .step a ih hg he

/-- Checked execution is a run from its state, if the check implies the guard. -/
theorem Steps.of_exec {g : σ → α → Bool} (hG : ∀ s a, g s a = true → G s a) {as : List α} :
    ∀ {s h s' h'}, M.exec g s h as = some (s', h') → M.Steps G s h s' h' := by
  induction as with
  | nil =>
    intro s h s' h' he
    obtain ⟨rfl, rfl⟩ := Prod.mk.inj (Option.some.inj he)
    exact .refl
  | cons a as ih =>
    intro s h s' h' he
    rw [exec] at he
    split at he
    · rename_i ha
      split at he
      · cases he
      · rename_i s₁ es hstep
        exact .trans (.step a .refl (hG _ _ ha) hstep) (ih he)
    · cases he

/-- **Refinement**: where each step is matched by steps of another machine with the same events, a run has a run of
the other with the same history. -/
theorem Run.refines {τ β : Type} {N : Machine τ β ε} {G' : τ → β → Prop} {R : σ → τ → Prop} (hinit : R M.init N.init)
    (hstep : ∀ {s t a s' es}, R s t → G s a → M.step s a = some (s', es) →
      ∀ h, ∃ t', N.Steps G' t h t' (es ++ h) ∧ R s' t')
    (hrun : M.Run G s h) : ∃ t, N.Run G' t h ∧ R s t := by
  induction hrun with
  | init => exact ⟨N.init, .init, hinit⟩
  | step a _ hg he ih =>
    obtain ⟨t, hrun, hR⟩ := ih
    obtain ⟨t', hsteps, hR'⟩ := hstep hR hg he _
    exact ⟨t', hrun.of_steps hsteps, hR'⟩

/-- **Progress of a machine**: a state that has a rank, and from which some action leads to the goal or to a lower rank
unless the goal is reached, can be led to the goal. -/
theorem Steps.of_rank {ρ : Type} {r : ρ → ρ → Prop} (hr : WellFounded r) {I : ρ → σ → Prop} {Q : σ → Prop}
    (hstep : ∀ x s, I x s → Q s ∨ ∃ a s' es, G s a ∧ M.step s a = some (s', es) ∧ (Q s' ∨ ∃ y, r y x ∧ I y s')) :
    ∀ x s, I x s → ∀ h, ∃ s' h', M.Steps G s h s' h' ∧ Q s' := by
  intro x
  induction x using hr.induction with
  | _ x ih =>
    intro s hi h
    rcases hstep x s hi with hq | ⟨a, s', es, hg, he, hq | ⟨y, hy, hi'⟩⟩
    · exact ⟨s, h, .refl, hq⟩
    · exact ⟨s', es ++ h, .step a .refl hg he, hq⟩
    · obtain ⟨s'', h'', hs, hq⟩ := ih y hy s' hi' (es ++ h)
      exact ⟨s'', h'', .trans (.step a .refl hg he) hs, hq⟩

/-- **Bounded counts**: if every step without events in `B` pays for its events in `k` from a potential `f`, then steps
without events in `B` have no more events in `k` than the potential. -/
theorem Steps.bounded {P : σ → Prop} {f : σ → Nat} {k : ε → Bool} {B : ε → Prop}
    (hstep : ∀ {s a s' es}, P s → G s a → M.step s a = some (s', es) → (∀ e ∈ es, ¬B e) →
      P s' ∧ es.countP k + f s' ≤ f s)
    {s' : σ} {h' : List ε} (hs : M.Steps G s h s' h') (hP : P s) :
    ∀ es, h' = es ++ h → (∀ e ∈ es, ¬B e) → P s' ∧ es.countP k + f s' ≤ f s := by
  induction hs with
  | refl =>
    intro es he _
    obtain rfl : es = [] := List.append_left_eq_self.1 he.symm
    exact ⟨hP, by simp⟩
  | @step s₁ s₂ h₁ es₂ a hs hg hstep₂ ih =>
    intro es he hno
    obtain ⟨es₁, rfl⟩ := hs.suffix
    rw [← List.append_assoc, List.append_cancel_right_eq] at he
    subst he
    obtain ⟨hP₁, hle₁⟩ := ih es₁ rfl fun e hmem => hno e (List.mem_append_right _ hmem)
    obtain ⟨hP₂, hle₂⟩ := hstep hP₁ hg hstep₂ fun e hmem => hno e (List.mem_append_left _ hmem)
    rw [List.countP_append]
    exact ⟨hP₂, by omega⟩

/-! ## Traces -/

variable (M) in
/-- The guarded runs with the states they went through, each with the events of the step to it, the newest first. -/
inductive Trace (G : σ → α → Prop) : List (σ × List ε) → Prop
  | init : Trace G [(M.init, [])]
  | step {s s' : σ} {es es' : List ε} {t : List (σ × List ε)} (a : α) : Trace G ((s, es) :: t) → G s a →
      M.step s a = some (s', es') → Trace G ((s', es') :: (s, es) :: t)

/-- The trace of a run. -/
theorem Trace.run {t : List (σ × List ε)} (htr : M.Trace G t) : ∃ s es t₁ h, t = (s, es) :: t₁ ∧ M.Run G s h := by
  induction htr with
  | init => exact ⟨_, _, _, _, rfl, .init⟩
  | step a _ hg he ih =>
    obtain ⟨s, es, t₁, h, heq, hrun⟩ := ih
    cases heq
    exact ⟨_, _, _, _, rfl, .step a hrun hg he⟩

/-- **Invariants of traces**, about the state reached and the trace to it. -/
theorem Trace.invariant {I : σ → List (σ × List ε) → Prop} (hinit : I M.init [(M.init, [])])
    (hstep : ∀ {s h a s' es es' t}, M.Run G s h → I s ((s, es) :: t) → G s a → M.step s a = some (s', es') →
      I s' ((s', es') :: (s, es) :: t)) {es : List ε} {t : List (σ × List ε)} (htr : M.Trace G ((s, es) :: t)) :
    I s ((s, es) :: t) := by
  suffices hall : ∀ {t}, M.Trace G t → ∀ {s es t₁}, t = (s, es) :: t₁ → I s t from hall htr rfl
  intro t htr
  induction htr with
  | init => rintro s es t₁ ⟨⟩; exact hinit
  | step a htr hg he ih =>
    rintro s es t₁ ⟨⟩
    obtain ⟨s, es, t₁, h, heq, hrun⟩ := htr.run
    cases heq
    exact hstep hrun (ih rfl) hg he

variable (M) in
/-- The trace after a list of actions, from the left, if they all pass the check `g`. -/
def trace (g : σ → α → Bool) (s : σ) (es : List ε) (t : List (σ × List ε)) : List α → Option (List (σ × List ε))
  | [] => some ((s, es) :: t)
  | a :: as =>
    if g s a then
      match M.step s a with
      | none => none
      | some (s', es') => trace g s' es' ((s, es) :: t) as
    else none

/-- Checked execution extends a trace. -/
theorem Trace.of_exec {I : σ → Prop} {g : σ → α → Bool} (hG : ∀ {s a}, I s → g s a = true → G s a)
    (hI : ∀ {s a s' es}, I s → g s a = true → M.step s a = some (s', es) → I s') {as : List α} :
    ∀ {s es t t'}, I s → M.Trace G ((s, es) :: t) → M.trace g s es t as = some t' → M.Trace G t' := by
  induction as with
  | nil =>
    intro s es t t' _ htr he
    obtain rfl := Option.some.inj he
    exact htr
  | cons a as ih =>
    intro s es t t' hs htr he
    rw [trace] at he
    split at he
    · rename_i ha
      split at he
      · cases he
      · rename_i s₁ es₁ hstep
        exact ih (hI hs ha hstep) (.step a htr (hG hs ha) hstep) he
    · cases he

end Machine
