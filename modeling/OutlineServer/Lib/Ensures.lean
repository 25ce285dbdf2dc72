import Mathlib.Tactic.TypeStar

/-!
# Postconditions of computations that can fail

`x.Ensures E Q`: the computation `x` gives a value that satisfies `Q`, or fails with an error that `E` allows.
-/

namespace Except

variable {ε : Type*} {α β : Type _} {E : ε → Prop} {x : Except ε α} {f : α → Except ε β} {Q Q' : α → Prop}
    {R : β → Prop}

def Ensures (E : ε → Prop) (x : Except ε α) (Q : α → Prop) : Prop :=
  match x with
  | .ok a => Q a
  | .error e => E e

theorem Ensures.ok {a : α} (h : Q a) : (Except.ok a : Except ε α).Ensures E Q := h

theorem Ensures.error {e : ε} (h : E e) : (Except.error e : Except ε α).Ensures E Q := h

/-- The rule of composition. -/
theorem Ensures.bind (h : x.Ensures E Q) (hf : ∀ a, Q a → (f a).Ensures E R) : (x >>= f).Ensures E R := by
  cases x with
  | ok a => exact hf a h
  | error e => exact h

/-- The rule of consequence. -/
theorem Ensures.mono (h : x.Ensures E Q) (hQ : ∀ a, Q a → Q' a) : x.Ensures E Q' := by
  cases x with
  | ok a => exact hQ a h
  | error e => exact h

theorem Ensures.of_eq_ok {a : α} (h : x.Ensures E Q) (hx : x = .ok a) : Q a := by
  subst hx
  exact h

end Except
