import Mathlib.Data.List.Induction

/-! # Labelled transition systems with an executable step

  A system is an initial state and a partial step function: a label that is
  not enabled in a state yields `none`. Since the step is a function, a run
  is a list of labels that can be evaluated, and every choice the environment
  makes is visible in a label.

  * `System.run`: fire a list of labels in order.
  * `System.ReachableBy ok`: reachable through steps that all satisfy `ok`.
  * `System.RunBy ok`: such a run with its labels.
  * `System.invariant`: the induction principle for reachable states.
  * `System.Reachable.budget`: a run counts no more steps than its budget.
  * `System.run_crossing`: a run that leaves a predicate has a step that does.
  * `System.reachable_map`: a simulation carries reachability over.
-/

namespace LTS

universe u v w

/-- A labelled transition system. `step s l = none` says `l` is not enabled. -/
structure System (State : Type u) (Label : Type v) where
  /-- The state every run starts in. -/
  init : State
  /-- The state after firing a label, if the label is enabled. -/
  step : State → Label → Option State

namespace System

variable {State : Type u} {Label : Type v} (sys : System State Label)

/-! ### Runs -/

/-- Fire the labels of a list in order. -/
def run : State → List Label → Option State
  | s, [] => some s
  | s, l :: ls => (sys.step s l).bind fun t => run t ls

@[simp] theorem run_nil (s : State) : sys.run s [] = some s := rfl

theorem run_cons {s u : State} {l : Label} {ls : List Label} :
    sys.run s (l :: ls) = some u ↔
      ∃ t, sys.step s l = some t ∧ sys.run t ls = some u := by
  simp [run, Option.bind_eq_some_iff]

theorem run_append {s u : State} {ls ls' : List Label} :
    sys.run s (ls ++ ls') = some u ↔
      ∃ t, sys.run s ls = some t ∧ sys.run t ls' = some u := by
  induction ls generalizing s with
  | nil => simp
  | cons l ls ih =>
    simp only [List.cons_append, run_cons, ih]
    constructor
    · rintro ⟨r, hr, t, ht, hu⟩
      exact ⟨t, ⟨r, hr, ht⟩, hu⟩
    · rintro ⟨t, ⟨r, hr, ht⟩, hu⟩
      exact ⟨r, hr, t, ht, hu⟩

theorem run_snoc {s t u : State} {l : Label} {ls : List Label}
    (hrun : sys.run s ls = some t) (hstep : sys.step t l = some u) :
    sys.run s (ls ++ [l]) = some u :=
  (sys.run_append).mpr ⟨t, hrun, (sys.run_cons).mpr ⟨u, hstep, rfl⟩⟩

/-- Induction on the last step of a run from the initial state. -/
theorem run_induction {P : List Label → State → Prop} (hinit : P [] sys.init)
    (hstep : ∀ ls s l t, sys.run sys.init ls = some s → P ls s →
      sys.step s l = some t → P (ls ++ [l]) t) :
    ∀ ls s, sys.run sys.init ls = some s → P ls s := by
  intro ls
  induction ls using List.reverseRecOn with
  | nil =>
    intro s hrun
    obtain rfl := Option.some.inj hrun
    exact hinit
  | append_singleton ls l ih =>
    intro t hrun
    obtain ⟨s, hs, hlast⟩ := (sys.run_append).mp hrun
    obtain ⟨u, hu, hnil⟩ := (sys.run_cons).mp hlast
    obtain rfl := Option.some.inj hnil
    exact hstep ls s l u hs (ih s hs) hu

/-- A property kept by every step is kept by every run. -/
theorem run_invariant {P : State → Prop}
    (hstep : ∀ s l t, P s → sys.step s l = some t → P t)
    {s t : State} {ls : List Label} (hs : P s) (hrun : sys.run s ls = some t) :
    P t := by
  induction ls generalizing s with
  | nil => simp only [run_nil, Option.some.injEq] at hrun; exact hrun ▸ hs
  | cons l ls ih =>
    obtain ⟨r, hr, hrest⟩ := (sys.run_cons).mp hrun
    exact ih (hstep s l r hs hr) hrest

/-- A run from a state with `P` to a state without it contains a step that
    leaves `P`. -/
theorem run_crossing {P : State → Prop} {s t : State} {ls : List Label}
    (hs : P s) (ht : ¬ P t) (hrun : sys.run s ls = some t) :
    ∃ ls₁ l ls₂ s₁ s₂, ls = ls₁ ++ l :: ls₂ ∧ sys.run s ls₁ = some s₁ ∧
      sys.step s₁ l = some s₂ ∧ sys.run s₂ ls₂ = some t ∧ P s₁ ∧ ¬ P s₂ := by
  induction ls generalizing s with
  | nil =>
    simp only [run_nil, Option.some.injEq] at hrun
    exact absurd (hrun ▸ hs) ht
  | cons l ls ih =>
    obtain ⟨r, hr, hrest⟩ := (sys.run_cons).mp hrun
    by_cases hPr : P r
    · obtain ⟨ls₁, l', ls₂, s₁, s₂, hls, h₁, h₂, h₃, hP₁, hP₂⟩ := ih hPr hrest
      exact ⟨l :: ls₁, l', ls₂, s₁, s₂, by rw [hls]; rfl,
        (sys.run_cons).mpr ⟨r, hr, h₁⟩, h₂, h₃, hP₁, hP₂⟩
    · exact ⟨[], l, ls, s, r, rfl, rfl, hr, hrest, hs, hPr⟩

/-! ### Reachable states -/

/-- Reachable from the initial state through steps that all satisfy `ok`. -/
inductive ReachableBy (ok : State → Label → Prop) : State → Prop where
  | init : ReachableBy ok sys.init
  | step {s t : State} {l : Label} :
      ReachableBy ok s → ok s l → sys.step s l = some t → ReachableBy ok t

/-- Reachable from the initial state. -/
abbrev Reachable : State → Prop := sys.ReachableBy fun _ _ => True

variable {sys}

theorem Reachable.next {s t : State} {l : Label} (h : sys.Reachable s)
    (hstep : sys.step s l = some t) : sys.Reachable t :=
  .step h trivial hstep

theorem ReachableBy.reachable {ok : State → Label → Prop} {s : State}
    (h : sys.ReachableBy ok s) : sys.Reachable s := by
  induction h with
  | init => exact .init
  | step _ _ hstep ih => exact ih.next hstep

theorem Reachable.run {s t : State} {ls : List Label} (h : sys.Reachable s)
    (hrun : sys.run s ls = some t) : sys.Reachable t :=
  sys.run_invariant (fun _ _ _ hs hstep => hs.next hstep) h hrun

theorem reachable_of_run {s : State} {ls : List Label}
    (hrun : sys.run sys.init ls = some s) : sys.Reachable s :=
  Reachable.run .init hrun

/-- Budget rule: where every step keeps something with `P`, whose budget each
    step that counts takes one of, a run has no more such steps than the budget. -/
theorem Reachable.budget {α : Type w} {P Q : State → α → Prop} {f : α → Nat} {c : Label → Bool}
    (hstep : ∀ s l t a, sys.Reachable s → P s a → sys.step s l = some t →
      ∃ b, P t b ∧ f b + (c l).toNat ≤ f a ∧ (Q s a → Q t b))
    {s t : State} {ls : List Label} {a : α} (hs : sys.Reachable s) (ha : P s a)
    (hrun : sys.run s ls = some t) :
    ∃ b, P t b ∧ f b + ls.countP c ≤ f a ∧ (Q s a → Q t b) := by
  induction ls generalizing s a with
  | nil =>
    obtain rfl := Option.some.inj hrun
    exact ⟨a, ha, Nat.le_refl _, id⟩
  | cons l ls ih =>
    obtain ⟨u, hfirst, hrest⟩ := (sys.run_cons).mp hrun
    obtain ⟨m, hm, hless, hkeeps⟩ := hstep s l u a hs ha hfirst
    obtain ⟨b, hb, hmost, hkeeps'⟩ := ih (hs.next hfirst) hm hrest
    refine ⟨b, hb, ?_, fun hq => hkeeps' (hkeeps hq)⟩
    have hone : (c l).toNat = if c l = true then 1 else 0 := by
      cases c l <;> rfl
    rw [List.countP_cons]
    omega

/-- Invariant rule: what holds initially and is kept by every allowed step
    holds in every state such steps reach. -/
theorem invariant {ok : State → Label → Prop} {P : State → Prop}
    (hinit : P sys.init)
    (hstep : ∀ s l t, P s → ok s l → sys.step s l = some t → P t) :
    ∀ s, sys.ReachableBy ok s → P s := by
  intro s h
  induction h with
  | init => exact hinit
  | step _ hok hst ih => exact hstep _ _ _ ih hok hst

/-- Invariant rule with a known invariant: the step may use that `J` holds
    before and after it. -/
theorem invariant_with {ok : State → Label → Prop} {J P : State → Prop}
    (hJ : ∀ s, sys.ReachableBy ok s → J s) (hinit : P sys.init)
    (hstep : ∀ s l t, J s → J t → P s → ok s l → sys.step s l = some t → P t) :
    ∀ s, sys.ReachableBy ok s → P s := by
  intro s h
  induction h with
  | init => exact hinit
  | step hs hok hst ih =>
    exact hstep _ _ _ (hJ _ hs) (hJ _ (hs.step hok hst)) ih hok hst

/-! ### Guarded runs -/

/-- A run from the initial state whose steps all satisfy `ok`. -/
inductive RunBy (sys : System State Label) (ok : State → Label → Prop) :
    List Label → State → Prop where
  | init : RunBy sys ok [] sys.init
  | step {ls : List Label} {s t : State} {l : Label} :
      RunBy sys ok ls s → ok s l → sys.step s l = some t → RunBy sys ok (ls ++ [l]) t

theorem RunBy.run {ok : State → Label → Prop} {ls : List Label} {s : State}
    (h : sys.RunBy ok ls s) : sys.run sys.init ls = some s := by
  induction h with
  | init => rfl
  | step _ _ hst ih => exact sys.run_snoc ih hst

theorem RunBy.reachableBy {ok : State → Label → Prop} {ls : List Label} {s : State}
    (h : sys.RunBy ok ls s) : sys.ReachableBy ok s := by
  induction h with
  | init => exact .init
  | step _ hok hst ih => exact ih.step hok hst

/-- Fire the labels of a list as long as a test allows it. -/
def runIf (sys : System State Label) (test : State → Label → Bool) :
    State → List Label → Option State
  | s, [] => some s
  | s, l :: ls =>
    if test s l then (sys.step s l).bind fun t => runIf sys test t ls else none

/-- A guarded run goes on with steps that pass a test for the guard. -/
theorem RunBy.runIf {ok : State → Label → Prop} {test : State → Label → Bool}
    (htest : ∀ s l, test s l = true → ok s l) {ls ls' : List Label} {s t : State}
    (h : sys.RunBy ok ls s) (hrun : sys.runIf test s ls' = some t) :
    sys.RunBy ok (ls ++ ls') t := by
  induction ls' generalizing ls s with
  | nil =>
    obtain rfl := Option.some.inj hrun
    rw [List.append_nil]
    exact h
  | cons l ls' ih =>
    simp only [System.runIf] at hrun
    split at hrun
    · next hl =>
      obtain ⟨u, hu, hrest⟩ := Option.bind_eq_some_iff.mp hrun
      have hnext := ih (h.step (htest s l hl) hu) hrest
      rw [List.append_assoc] at hnext
      exact hnext
    · cases hrun

/-! ### Simulation -/

/-- If every step of `sys` maps to a step of `abs` or leaves the image
    unchanged, then images of reachable states are reachable. -/
theorem reachable_map {State' : Type u} {Label' : Type v}
    {abs : System State' Label'} (f : State → State')
    (hinit : f sys.init = abs.init)
    (hstep : ∀ s l t, sys.step s l = some t →
      f t = f s ∨ ∃ l', abs.step (f s) l' = some (f t)) :
    ∀ s, sys.Reachable s → abs.Reachable (f s) := by
  intro s h
  induction h with
  | init => rw [hinit]; exact .init
  | step _ _ hst ih =>
    rcases hstep _ _ _ hst with heq | ⟨l', hl'⟩
    · rw [heq]; exact ih
    · exact ih.next hl'

end System

end LTS
