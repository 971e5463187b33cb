import Mathlib.Algebra.BigOperators.Group.List.Basic
import Mathlib.Algebra.Order.Ring.Nat

/-! # Fixed-width unsigned arithmetic

  Numbers of `w` bits are natural numbers below `2 ^ w`. What an operation does
  with a result that does not fit depends on how the program was built: a debug
  build panics, a release build drops the carry.

  * `Mode.fit`: the outcome of a computation with this exact value.
  * `Mode.add`, `Mode.mul`, `Mode.sub`, `Mode.sum`: the plain operators.
  * `saturatingAdd`: the sum, or the largest number.
  * `truncate`: a cast to a narrower type.

  Additions compose: a chain of them has the outcome of its exact value
  (`Mode.fit_add`), so a chain overflows when its value does.
-/

namespace Machine

/-- How the program was built. -/
inductive Mode where
  /-- Overflow panics. -/
  | checked
  /-- Overflow wraps around. -/
  | wrapping
  deriving DecidableEq, Repr

namespace Mode

/-- The outcome of a computation whose exact value is `n`. `none` is a panic. -/
def fit (m : Mode) (w n : Nat) : Option Nat :=
  if n < 2 ^ w then some n
  else match m with
    | .checked => none
    | .wrapping => some (n % 2 ^ w)

def add (m : Mode) (w a b : Nat) : Option Nat := m.fit w (a + b)

def mul (m : Mode) (w a b : Nat) : Option Nat := m.fit w (a * b)

def sub (m : Mode) (w a b : Nat) : Option Nat :=
  if b ≤ a then some (a - b)
  else match m with
    | .checked => none
    | .wrapping => some (a + 2 ^ w - b)

/-- The sum of an iterator. -/
def sum (m : Mode) (w : Nat) (ns : List Nat) : Option Nat := ns.foldlM (m.add w) 0

end Mode

def saturatingAdd (w a b : Nat) : Nat := min (a + b) (2 ^ w - 1)

def truncate (w a : Nat) : Nat := a % 2 ^ w

section

variable {m : Mode} {w a b n : Nat}

theorem Mode.fit_of_lt (h : n < 2 ^ w) : m.fit w n = some n := if_pos h

/-- What does not fit panics or loses its carry. -/
theorem Mode.fit_of_le (h : 2 ^ w ≤ n) : m.fit w n = none ∨ m.fit w n = some (n % 2 ^ w) := by
  have hfit : m.fit w n = match m with
      | .checked => none
      | .wrapping => some (n % 2 ^ w) := if_neg (by omega)
  cases m with
  | checked => exact .inl hfit
  | wrapping => exact .inr hfit

theorem Mode.fit_lt (h : m.fit w n = some a) : a < 2 ^ w := by
  by_cases hn : n < 2 ^ w
  · rw [fit_of_lt hn] at h
    obtain rfl := Option.some.inj h
    exact hn
  · rcases fit_of_le (m := m) (Nat.le_of_not_lt hn) with hnone | hsome
    · rw [hnone] at h
      cases h
    · rw [hsome] at h
      obtain rfl := Option.some.inj h
      exact Nat.mod_lt _ (Nat.two_pow_pos w)

/-- Adding to an outcome is the outcome of the sum. -/
theorem Mode.fit_add : ((m.fit w a).bind fun a => m.fit w (a + b)) = m.fit w (a + b) := by
  by_cases ha : a < 2 ^ w
  · rw [fit_of_lt ha, Option.bind_some]
  · have hsum : ¬ a + b < 2 ^ w := by omega
    cases m with
    | checked => simp [fit, ha, hsum]
    | wrapping =>
      have hmod : (a % 2 ^ w + b) % 2 ^ w = (a + b) % 2 ^ w := Nat.mod_add_mod a _ b
      simp only [fit, ha, hsum, if_false, Option.bind_some]
      by_cases hlt : a % 2 ^ w + b < 2 ^ w
      · rw [if_pos hlt, ← hmod, Nat.mod_eq_of_lt hlt]
      · rw [if_neg hlt, hmod]

/-- A sum that does not fit either panics or comes out below both terms. -/
theorem Mode.add_of_le (h : 2 ^ w ≤ a + b) (ha : a < 2 ^ w) (hb : b < 2 ^ w) :
    m.add w a b = none ∨ ∃ c, m.add w a b = some c ∧ c < a ∧ c < b := by
  rcases fit_of_le (m := m) h with hnone | hsome
  · exact .inl hnone
  · have hmod : (a + b) % 2 ^ w = a + b - 2 ^ w := by
      rw [Nat.mod_eq_sub_mod h, Nat.mod_eq_of_lt (by omega)]
    exact .inr ⟨_, hsome, by omega, by omega⟩

theorem Mode.add_of_lt (h : a + b < 2 ^ w) : m.add w a b = some (a + b) := fit_of_lt h

theorem Mode.sub_of_le (h : b ≤ a) : m.sub w a b = some (a - b) := if_pos h

theorem Mode.sum_eq (ns : List Nat) : m.sum w ns = m.fit w ns.sum := by
  have key : ∀ a, a < 2 ^ w → ns.foldlM (m.add w) a = m.fit w (a + ns.sum) := by
    induction ns with
    | nil =>
      intro a ha
      exact (fit_of_lt ha).symm
    | cons n ns ih =>
      intro a ha
      rw [List.foldlM_cons, List.sum_cons, ← Nat.add_assoc, ← fit_add]
      show (m.fit w (a + n)).bind _ = _
      cases hfit : m.fit w (a + n) with
      | none => rfl
      | some c => exact ih c (fit_lt hfit)
  have hsum := key 0 (Nat.two_pow_pos w)
  rwa [Nat.zero_add] at hsum

theorem truncate_of_lt (h : a < 2 ^ w) : truncate w a = a := Nat.mod_eq_of_lt h

end

end Machine
