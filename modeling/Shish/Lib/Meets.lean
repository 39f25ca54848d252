import Mathlib.Init

/-!
# Lib/Meets — what a computation that may fail comes to

A computation of `Except ε α` meets a condition on its results if every result meets it and no error
is one of the `bad` ones.  One rule for each way such computations are put together; a bound that is
an error of its own (`bad`) is shown to be large enough along with everything else.
-/

namespace Shish

universe u v

variable {ε : Type u} {α β : Type v} {bad : ε → Prop}

/-- **The result is as asked**, and an error is none of the bad ones. -/
def Meets (bad : ε → Prop) (r : Except ε α) (Q : α → Prop) : Prop :=
  match r with
  | .ok a => Q a
  | .error e => ¬ bad e

namespace Meets

variable {r : Except ε α} {Q Q' : α → Prop}

theorem ok {a : α} (h : Q a) : Meets bad (.ok a : Except ε α) Q := h

theorem pure {a : α} (h : Q a) : Meets bad (Pure.pure a : Except ε α) Q := h

theorem error {e : ε} (h : ¬ bad e) : Meets bad (.error e : Except ε α) Q := h

theorem mono (h : Meets bad r Q) (himp : ∀ a, Q a → Q' a) : Meets bad r Q' := by
  cases r with
  | ok a => exact himp a h
  | error e => exact h

/-- **One computation behind the other.** -/
theorem bind {f : α → Except ε β} {R : β → Prop} (h : Meets bad r Q)
    (hf : ∀ a, Q a → Meets bad (f a) R) : Meets bad (r >>= f) R := by
  cases r with
  | ok a => exact hf a h
  | error e => exact h

/-- What is asked of a result, of the result at hand. -/
theorem of_ok {a : α} (h : Meets bad r Q) (hr : r = .ok a) : Q a := by
  rw [hr] at h
  exact h

theorem not_bad {e : ε} (h : Meets bad r Q) (hr : r = .error e) : ¬ bad e := by
  rw [hr] at h
  exact h

end Meets

end Shish
