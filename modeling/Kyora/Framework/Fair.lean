import Kyora.Framework.System
import Mathlib.Tactic.Push

/-! # Infinite runs and weak fairness

  An infinite run fires a label at each index or stutters there, so a finite
  run is one that stutters from some index on. A process is a set of labels. It
  is treated fairly if it never stays enabled for ever without taking a step.

  * `Execution.ofRun`: a finite run that stutters at its end.
  * `Execution.Fair`: weak fairness for a process.
  * `Execution.LeadsTo`: whenever `P` holds, `Q` holds then or later.
  * `Execution.leadsTo_of_fair`: progress by a step of one fair process.
-/

namespace LTS

universe u v

variable {State : Type u} {Label : Type v}

/-! ### Infinite runs -/

/-- A step, or none. -/
def System.move (sys : System State Label) (s : State) : Option Label → Option State
  | some l => sys.step s l
  | none => some s

/-- Some step of a process can be taken. -/
def System.Enabled (sys : System State Label) (mine : Label → Prop) (s : State) : Prop :=
  ∃ l, mine l ∧ ∃ t, sys.step s l = some t

/-- An infinite run. -/
structure Execution (sys : System State Label) where
  states : Nat → State
  labels : Nat → Option Label
  start : states 0 = sys.init
  valid : ∀ i, sys.move (states i) (labels i) = some (states (i + 1))

namespace Execution

variable {sys : System State Label}

theorem reachable (e : Execution sys) (i : Nat) : sys.Reachable (e.states i) := by
  induction i with
  | zero =>
    rw [e.start]
    exact .init
  | succ i ih =>
    have hmove := e.valid i
    cases hl : e.labels i with
    | none =>
      rw [hl] at hmove
      exact Option.some.inj hmove ▸ ih
    | some l =>
      rw [hl] at hmove
      exact ih.next hmove

/-! ### Finite runs -/

/-- The state that a finite run has reached at an index. -/
def stateAt (sys : System State Label) (ls : List Label) (i : Nat) : State :=
  (sys.run sys.init (ls.take i)).getD sys.init

theorem run_take {ls : List Label} {s : State} (h : sys.run sys.init ls = some s) (i : Nat) :
    sys.run sys.init (ls.take i) = some (stateAt sys ls i) := by
  rw [← List.take_append_drop i ls] at h
  obtain ⟨t, ht, -⟩ := (sys.run_append).mp h
  rw [stateAt, ht, Option.getD_some]

/-- The infinite run that fires the labels of a list and then stutters. -/
def ofRun {ls : List Label} {s : State} (h : sys.run sys.init ls = some s) : Execution sys where
  states := stateAt sys ls
  labels i := ls[i]?
  start := rfl
  valid := by
    intro i
    have hnext := run_take h (i + 1)
    by_cases hi : i < ls.length
    · rw [List.take_succ_eq_append_getElem hi] at hnext
      obtain ⟨t, ht, hlast⟩ := (sys.run_append).mp hnext
      obtain ⟨u, hu, hend⟩ := (sys.run_cons).mp hlast
      obtain rfl := Option.some.inj ((run_take h i).symm.trans ht)
      rw [List.getElem?_eq_getElem hi, ← Option.some.inj hend]
      exact hu
    · have hle := Nat.le_of_not_lt hi
      rw [List.getElem?_eq_none hle]
      unfold System.move stateAt
      rw [List.take_of_length_le hle, List.take_of_length_le (Nat.le_succ_of_le hle)]

theorem ofRun_end {ls : List Label} {s : State} (h : sys.run sys.init ls = some s) {i : Nat}
    (hi : ls.length ≤ i) : (ofRun h).states i = s := by
  have hend := run_take h i
  rw [List.take_of_length_le hi, h] at hend
  exact (Option.some.inj hend).symm

/-! ### Fairness -/

/-- A process that stays enabled takes a step. -/
def Fair (e : Execution sys) (mine : Label → Prop) : Prop :=
  ∀ i, (∀ j, i ≤ j → sys.Enabled mine (e.states j)) →
    ∃ j l, i ≤ j ∧ e.labels j = some l ∧ mine l

/-- A finite run is fair to the processes that cannot go on at its end. -/
theorem ofRun_fair {ls : List Label} {s : State} (h : sys.run sys.init ls = some s)
    {mine : Label → Prop} (hend : ¬sys.Enabled mine s) : (ofRun h).Fair mine := by
  intro i henabled
  have hlast := henabled (max i ls.length) (Nat.le_max_left _ _)
  rw [ofRun_end h (Nat.le_max_right _ _)] at hlast
  exact absurd hlast hend

/-- Whenever `P` holds, `Q` holds then or later. -/
def LeadsTo (e : Execution sys) (P Q : State → Prop) : Prop :=
  ∀ i, P (e.states i) → ∃ j, i ≤ j ∧ Q (e.states j)

section leads

variable {e : Execution sys} {P Q R : State → Prop}

theorem LeadsTo.trans (hP : e.LeadsTo P Q) (hQ : e.LeadsTo Q R) : e.LeadsTo P R := by
  intro i hi
  obtain ⟨j, hij, hj⟩ := hP i hi
  obtain ⟨k, hjk, hk⟩ := hQ j hj
  exact ⟨k, Nat.le_trans hij hjk, hk⟩

/-- What every step keeps holds from then on. -/
theorem kept (hkept : ∀ s l t, sys.Reachable s → P s → sys.step s l = some t → P t) {i j : Nat}
    (hij : i ≤ j) (hi : P (e.states i)) : P (e.states j) := by
  induction hij with
  | refl => exact hi
  | @step j _ ih =>
    have hmove := e.valid j
    cases hl : e.labels j with
    | none =>
      rw [hl] at hmove
      exact Option.some.inj hmove ▸ ih
    | some l =>
      rw [hl] at hmove
      exact hkept _ l _ (e.reachable j) ih hmove

/-- Progress by one fair process: it is enabled while `P` holds, its own steps
    lead from `P` to `Q`, and the steps of others do not lead out of `P`
    elsewhere. -/
theorem leadsTo_of_fair {mine : Label → Prop} (hfair : e.Fair mine)
    (henabled : ∀ s, sys.Reachable s → P s → sys.Enabled mine s)
    (hothers : ∀ s l t, sys.Reachable s → P s → sys.step s l = some t → ¬mine l → P t ∨ Q t)
    (hmine : ∀ s l t, sys.Reachable s → P s → sys.step s l = some t → mine l → Q t) :
    e.LeadsTo P Q := by
  intro i hi
  by_contra hnever
  push Not at hnever
  -- As long as `Q` does not come, no step leads out of `P`.
  have hstays : ∀ j, i ≤ j → P (e.states j) := by
    intro j hij
    induction hij with
    | refl => exact hi
    | @step j hij ih =>
      have hmove := e.valid j
      have hnot := hnever (j + 1) (Nat.le_succ_of_le hij)
      cases hl : e.labels j with
      | none =>
        rw [hl] at hmove
        exact Option.some.inj hmove ▸ ih
      | some l =>
        rw [hl] at hmove
        by_cases hm : mine l
        · exact absurd (hmine _ l _ (e.reachable j) ih hmove hm) hnot
        · exact (hothers _ l _ (e.reachable j) ih hmove hm).resolve_right hnot
  obtain ⟨j, l, hij, hl, hm⟩ := hfair i fun j hij => henabled _ (e.reachable j) (hstays j hij)
  have hmove := e.valid j
  rw [hl] at hmove
  exact hnever (j + 1) (Nat.le_succ_of_le hij)
    (hmine _ l _ (e.reachable j) (hstays j hij) hmove hm)

end leads

end Execution

end LTS
