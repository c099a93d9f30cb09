import Mathlib.Logic.Function.Basic

/-!
# Clients that own resources of a shared state

A protocol gives an invariant of the shared state, an invariant of each client over it, the resources a client owns, and
what a client relies on when the shared state changes. The clients are `Good` when all invariants hold and no resource
has two owners. A step of one client keeps this (`Good.step`) if it keeps the shared invariant and its own one, if every
client that owns none of its resources, before and after, can rely on the change, and if the resources it takes had no
owner.
-/

/-- The invariants of a shared state `σ` and of clients `κ` that own resources `ρ`. -/
structure Protocol (σ κ ρ : Type) where
  shared : σ → Prop
  client : σ → κ → Prop
  owns : κ → ρ → Prop
  /-- what a client with the given resources relies on when the shared state changes -/
  rely : σ → σ → (ρ → Prop) → Prop
  stable : ∀ {s s' c}, client s c → rely s s' (owns c) → client s' c

/-- The clients after one of them has changed. -/
theorem update_eq_some {ι κ : Type} [DecidableEq ι] {clients : ι → Option κ} {i j : ι} {o : Option κ} {c : κ}
    (h : Function.update clients i o j = some c) : (j = i ∧ o = some c) ∨ (j ≠ i ∧ clients j = some c) := by
  by_cases hj : j = i
  · subst hj
    rw [Function.update_self] at h
    exact .inl ⟨rfl, h⟩
  · rw [Function.update_of_ne hj] at h
    exact .inr ⟨hj, h⟩

namespace Protocol

variable {σ κ ρ ι : Type} (P : Protocol σ κ ρ)

/-- All invariants hold, and no resource has two owners. -/
structure Good (s : σ) (clients : ι → Option κ) : Prop where
  shared : P.shared s
  client : ∀ {i c}, clients i = some c → P.client s c
  apart : ∀ {i j c c' r}, clients i = some c → clients j = some c' → P.owns c r → P.owns c' r → i = j

/-- A change of the shared state and of one client that the other clients can rely on. -/
structure Change (s : σ) (c : κ) (s' : σ) (c' : κ) : Prop where
  shared : P.shared s'
  client : P.client s' c'
  guarantee : ∀ O : ρ → Prop, (∀ r, O r → ¬P.owns c r ∧ ¬P.owns c' r) → P.rely s s' O
  /-- what is taken had no owner -/
  taken : ∀ r, P.owns c' r → P.owns c r ∨ ∀ c'', P.client s c'' → ¬P.owns c'' r

variable {P} [DecidableEq ι] {s s' : σ} {clients : ι → Option κ} {i : ι} {c c' : κ}

/-- **A step** of one client. -/
theorem Good.step (h : P.Good s clients) (hi : clients i = some c) (hs : P.Change s c s' c') :
    P.Good s' (Function.update clients i (some c')) := by
  -- an owner of a resource after the step, other than the client of the step, does not share it with that client
  have happart : ∀ {j cj r}, j ≠ i → clients j = some cj → P.owns cj r → ¬P.owns c' r := by
    intro j cj r hj hcj hr hr'
    rcases hs.taken r hr' with ho | hno
    · exact hj (h.apart hcj hi hr ho)
    · exact hno cj (h.client hcj) hr
  refine ⟨hs.shared, ?_, ?_⟩
  · intro j cj hcj
    by_cases hj : j = i
    · subst hj
      rw [Function.update_self] at hcj
      cases hcj
      exact hs.client
    · rw [Function.update_of_ne hj] at hcj
      exact P.stable (h.client hcj)
        (hs.guarantee _ fun r hr => ⟨fun ho => hj (h.apart hcj hi hr ho), happart hj hcj hr⟩)
  · intro j j' cj cj' r hcj hcj' hr hr'
    by_cases hj : j = i <;> by_cases hj' : j' = i
    · exact hj.trans hj'.symm
    · subst hj
      rw [Function.update_self] at hcj
      rw [Function.update_of_ne hj'] at hcj'
      cases hcj
      exact absurd hr (happart hj' hcj' hr')
    · subst hj'
      rw [Function.update_self] at hcj'
      rw [Function.update_of_ne hj] at hcj
      cases hcj'
      exact absurd hr' (happart hj hcj hr)
    · rw [Function.update_of_ne hj] at hcj
      rw [Function.update_of_ne hj'] at hcj'
      exact h.apart hcj hcj' hr hr'

/-- A client without resources enters. -/
theorem Good.enter (h : P.Good s clients) (hc : P.client s c) (ho : ∀ r, ¬P.owns c r) :
    P.Good s (Function.update clients i (some c)) := by
  refine ⟨h.shared, ?_, ?_⟩
  · intro j cj hcj
    by_cases hj : j = i
    · subst hj
      rw [Function.update_self] at hcj
      cases hcj
      exact hc
    · rw [Function.update_of_ne hj] at hcj
      exact h.client hcj
  · -- the new client owns nothing
    have hold : ∀ {j cj r}, Function.update clients i (some c) j = some cj → P.owns cj r → clients j = some cj := by
      intro j cj r hcj hr
      by_cases hj : j = i
      · subst hj
        rw [Function.update_self] at hcj
        cases hcj
        exact absurd hr (ho r)
      · rwa [Function.update_of_ne hj] at hcj
    intro j j' cj cj' r hcj hcj' hr hr'
    exact h.apart (hold hcj hr) (hold hcj' hr') hr hr'

/-- A client leaves. -/
theorem Good.leave (h : P.Good s clients) : P.Good s (Function.update clients i none) := by
  have hold : ∀ {j cj}, Function.update clients i none j = some cj → clients j = some cj := by
    intro j cj hcj
    by_cases hj : j = i
    · subst hj
      rw [Function.update_self] at hcj
      cases hcj
    · rwa [Function.update_of_ne hj] at hcj
  exact ⟨h.shared, fun hcj => h.client (hold hcj), fun hcj hcj' => h.apart (hold hcj) (hold hcj')⟩

end Protocol
