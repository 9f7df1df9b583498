import Mathlib.Init

/-!
# Outcomes of fallible code

`Outcome E Q r` says of the result `r : Except ε α` of a computation that a
value satisfies `Q` and an error `E`. With an empty `E` that is total
correctness; a larger `E` names the errors the caller accepts, and why they
happen.

There is one rule for each way code is put together. `Outcome.and_ok` brings in
what is known of a result once it has been returned, so that what the
computation does and that it does not fail can be proved apart.
-/

namespace SimplestWeb.Lib

variable {ε α β : Type}

/-- A value satisfies `Q`, an error `E`. -/
def Outcome (E : ε → Prop) (Q : α → Prop) : Except ε α → Prop
  | .ok a => Q a
  | .error e => E e

namespace Outcome

variable {E E' : ε → Prop} {P Q : α → Prop} {R : β → Prop} {r : Except ε α} {a : α} {e : ε}

/-- Sequencing: the second part may use that the first has returned. -/
theorem bind {f : α → Except ε β} (hr : Outcome E P r)
    (hf : ∀ a, r = .ok a → P a → Outcome E R (f a)) : Outcome E R (r >>= f) := by
  cases r with
  | ok a => exact hf a rfl hr
  | error e => exact hr

/-- Consequence. -/
theorem mono (h : Outcome E P r) (hE : ∀ e, E e → E' e) (hQ : ∀ a, P a → Q a) :
    Outcome E' Q r := by
  cases r with
  | ok a => exact hQ a h
  | error e => exact hE e h

/-- Apply a function to the value. -/
theorem map {f : α → β} (h : Outcome E P r) (hf : ∀ a, P a → R (f a)) : Outcome E R (r.map f) := by
  cases r with
  | ok a => exact hf a h
  | error e => exact h

/-- What holds of every value returned may be added. -/
theorem and_ok (h : Outcome E P r) (hok : ∀ a, r = .ok a → Q a) :
    Outcome E (fun a => P a ∧ Q a) r := by
  cases r with
  | ok a => exact ⟨h, hok a rfl⟩
  | error e => exact h

/-- The value returned. -/
theorem of_ok (h : Outcome E Q r) (hr : r = .ok a) : Q a := by
  rw [hr] at h
  exact h

/-- The error raised. -/
theorem of_error (h : Outcome E Q r) (hr : r = .error e) : E e := by
  rw [hr] at h
  exact h

/-- No value is accepted and one error. -/
theorem eq_error (h : Outcome (· = e) (fun _ => False) r) : r = .error e := by
  cases r with
  | ok a => exact h.elim
  | error e' => exact congrArg Except.error h

end Outcome

end SimplestWeb.Lib
