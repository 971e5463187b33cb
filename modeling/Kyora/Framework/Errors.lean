import Mathlib.Init

/-! # The errors of a computation

  Which errors a computation can end with, proved from its parts.

  * `Errors.Only p x`: every error of `x` satisfies `p`.
  * `Only.bind`, `Only.map`, `Only.foldlM`: the rules for composed computations.
-/

namespace Errors

variable {ε α β : Type} {p q : ε → Prop}

/-- Every error satisfies `p`. -/
def Only (p : ε → Prop) (x : Except ε α) : Prop := ∀ e, x = .error e → p e

theorem only_ok (a : α) : Only p (.ok a) := by
  intro e h
  cases h

theorem only_error {e : ε} (h : p e) : Only p (.error e : Except ε α) := by
  intro e' heq
  cases heq
  exact h

theorem Only.mono {x : Except ε α} (h : Only p x) (hpq : ∀ e, p e → q e) : Only q x :=
  fun e he => hpq e (h e he)

theorem Only.map {x : Except ε α} (h : Only p x) (f : α → β) : Only p (x.map f) := by
  cases x with
  | ok a => exact only_ok (f a)
  | error e => exact only_error (h e rfl)

/-- One computation after another. The second may count on the result of the first. -/
theorem Only.bind {x : Except ε α} {f : α → Except ε β} (hx : Only p x)
    (hf : ∀ a, x = .ok a → Only p (f a)) : Only p (x >>= f) := by
  cases x with
  | ok a => exact hf a rfl
  | error e => exact only_error (hx e rfl)

theorem Only.foldlM {f : β → α → Except ε β} (hf : ∀ b a, Only p (f b a)) (as : List α) (b : β) :
    Only p (as.foldlM f b) := by
  induction as generalizing b with
  | nil => exact only_ok b
  | cons a as ih =>
    rw [List.foldlM_cons]
    exact (hf b a).bind fun b' _ => ih b'

end Errors
