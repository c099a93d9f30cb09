/-!
# Checked computations

A computation that may stop at a failed assertion is an `Except`. `assert a p` stops with `a` unless `p` holds.
-/

namespace Checked

variable {ε α β : Type}

/-- Go on if `p` holds, stop with `a` otherwise. -/
def assert (a : ε) (p : Prop) [Decidable p] : Except ε Unit := if p then .ok () else .error a

theorem assert_eq_ok {a : ε} {p : Prop} [Decidable p] {u : Unit} : assert a p = .ok u ↔ p := by
  unfold assert
  split <;> simp_all

theorem assert_of {a : ε} {p : Prop} [Decidable p] (h : p) : assert a p = .ok () := by simp [assert, h]

theorem assert_of_not {a : ε} {p : Prop} [Decidable p] (h : ¬p) : assert a p = .error a := by simp [assert, h]

@[simp] theorem ok_bind (x : α) (f : α → Except ε β) : (Except.ok x >>= f) = f x := rfl

@[simp] theorem error_bind (a : ε) (f : α → Except ε β) : ((Except.error a : Except ε α) >>= f) = .error a := rfl

@[simp] theorem pure_eq_ok (x : α) : (pure x : Except ε α) = .ok x := rfl

/-- A sequence succeeds when both parts do. -/
theorem bind_eq_ok {x : Except ε α} {f : α → Except ε β} {b : β} :
    (x >>= f) = .ok b ↔ ∃ a, x = .ok a ∧ f a = .ok b := by
  cases x <;> simp

/-- A sequence stops where one of its parts does. -/
theorem bind_eq_error {x : Except ε α} {f : α → Except ε β} {e : ε} :
    (x >>= f) = .error e ↔ x = .error e ∨ ∃ a, x = .ok a ∧ f a = .error e := by
  cases x <;> simp

end Checked
