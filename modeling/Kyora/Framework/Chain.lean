import Mathlib.Data.List.Basic

/-! # Chains of tasks

  Tasks submitted one after another, each of which starts only after the one
  submitted before it is done. Whatever order the environment picks, at most
  one task of a chain is active, and the tasks are done in the order they were
  submitted.

  * `start`, `finish`: the two steps of one task.
  * `Chained`: a block of done tasks, at most one active one, and the rest.
  * `finish_chained`: a task that finishes is the next one in order.
-/

namespace Chain

universe u

variable {α : Type u}

/-- Where a task stands. -/
inductive Pc where
  | waiting | active | done
  deriving DecidableEq, Repr

structure Task (α : Type u) where
  item : α
  pc : Pc
  deriving DecidableEq, Repr

/-! ### Steps -/

/-- Whether the task before position `i` is done. -/
def previousDone (ts : List (Task α)) : Nat → Bool
  | 0 => true
  | i + 1 => (ts[i]?).any fun t => t.pc == .done

/-- The task at position `i` starts. -/
def start (ts : List (Task α)) (i : Nat) : Option (List (Task α)) :=
  match ts[i]? with
  | some ⟨x, .waiting⟩ =>
    if previousDone ts i then some (ts.set i ⟨x, .active⟩) else none
  | _ => none

/-- The task at position `i` is done; the item it worked on. -/
def finish (ts : List (Task α)) (i : Nat) : Option (α × List (Task α)) :=
  match ts[i]? with
  | some ⟨x, .active⟩ => some (x, ts.set i ⟨x, .done⟩)
  | _ => none

/-- A new task joins the end of the chain. -/
def submit (ts : List (Task α)) (x : α) : List (Task α) := ts ++ [⟨x, .waiting⟩]

/-! ### Items -/

/-- Everything submitted, in order. -/
def items (ts : List (Task α)) : List α := ts.map Task.item

/-- The items whose tasks are done. -/
def finished (ts : List (Task α)) : List α :=
  (ts.filter fun t => t.pc == .done).map Task.item

/-- The items whose tasks are not done. -/
def unfinished (ts : List (Task α)) : List α :=
  (ts.filter fun t => t.pc != .done).map Task.item

@[simp] theorem items_submit (ts : List (Task α)) (x : α) :
    items (submit ts x) = items ts ++ [x] := by
  simp [items, submit]

@[simp] theorem finished_submit (ts : List (Task α)) (x : α) :
    finished (submit ts x) = finished ts := by
  simp [finished, submit]

@[simp] theorem unfinished_submit (ts : List (Task α)) (x : α) :
    unfinished (submit ts x) = unfinished ts ++ [x] := by
  simp [unfinished, submit]

theorem mem_unfinished {ts : List (Task α)} {i : Nat} {t : Task α} (h : ts[i]? = some t)
    (hpc : t.pc ≠ .done) : t.item ∈ unfinished ts := by
  refine List.mem_map_of_mem (List.mem_filter.mpr ⟨List.mem_of_getElem? h, ?_⟩)
  simpa using hpc

/-- With nothing left to do no task starts. -/
theorem unfinished_of_start {ts ts' : List (Task α)} {i : Nat} (h : start ts i = some ts') :
    unfinished ts ≠ [] := by
  unfold start at h
  split at h
  · next x hx => exact List.ne_nil_of_mem (mem_unfinished hx (by simp))
  · cases h

theorem mem_unfinished_of_finish {ts ts' : List (Task α)} {i : Nat} {x : α}
    (h : finish ts i = some (x, ts')) : x ∈ unfinished ts := by
  unfold finish at h
  split at h
  · next y hy =>
    obtain ⟨rfl, -⟩ := Prod.mk.inj (Option.some.inj h)
    exact mem_unfinished hy (by simp)
  · cases h

/-! ### The shape of a chain -/

/-- A block of done tasks, at most one active one, and waiting ones. -/
def Chained : List (Task α) → Prop
  | [] => True
  | t :: ts => if t.pc = .done then Chained ts else ∀ t' ∈ ts, t'.pc = .waiting

theorem chained_cons_done {t : Task α} {ts : List (Task α)} (h : t.pc = .done) :
    Chained (t :: ts) ↔ Chained ts := by
  rw [Chained, if_pos h]

theorem chained_cons {t : Task α} {ts : List (Task α)} (h : t.pc ≠ .done) :
    Chained (t :: ts) ↔ ∀ t' ∈ ts, t'.pc = .waiting := by
  rw [Chained, if_neg h]

theorem chained_of_waiting {ts : List (Task α)} (h : ∀ t ∈ ts, t.pc = .waiting) :
    Chained ts := by
  cases ts with
  | nil => trivial
  | cons t ts =>
    rw [chained_cons (by rw [h t List.mem_cons_self]; simp)]
    intro t' ht'
    exact h t' (List.mem_cons_of_mem t ht')

theorem finished_of_waiting {ts : List (Task α)} (h : ∀ t ∈ ts, t.pc = .waiting) :
    finished ts = [] := by
  unfold finished
  rw [List.filter_eq_nil_iff.mpr, List.map_nil]
  intro t ht
  rw [h t ht]
  simp

theorem submit_chained {ts : List (Task α)} (h : Chained ts) (x : α) :
    Chained (submit ts x) := by
  induction ts with
  | nil => exact chained_of_waiting (by simp [submit])
  | cons t ts ih =>
    by_cases ht : t.pc = .done
    · rw [chained_cons_done ht] at h
      exact (chained_cons_done ht).mpr (ih h)
    · rw [chained_cons ht] at h
      refine (chained_cons ht).mpr fun t' ht' => ?_
      rcases List.mem_append.mp ht' with ht' | ht'
      · exact h t' ht'
      · rw [List.mem_singleton.mp ht']

/-- Only the first task that is not done can start. -/
theorem start_chained {ts ts' : List (Task α)} (h : Chained ts) {i : Nat}
    (hstart : start ts i = some ts') :
    Chained ts' ∧ finished ts' = finished ts ∧ unfinished ts' = unfinished ts ∧
      items ts' = items ts := by
  induction ts generalizing i ts' with
  | nil => cases hstart
  | cons t ts ih =>
    cases i with
    | zero =>
      obtain ⟨x, pc⟩ := t
      cases pc with
      | waiting =>
        obtain rfl := Option.some.inj hstart
        rw [chained_cons (by simp)] at h
        exact ⟨(chained_cons (by simp)).mpr h, by simp [finished], by simp [unfinished],
          by simp [items]⟩
      | active => cases hstart
      | done => cases hstart
    | succ i =>
      -- The task before position `i + 1` is done, so the head is.
      have hget : ∃ x, ts[i]? = some ⟨x, .waiting⟩ ∧ previousDone (t :: ts) (i + 1) = true ∧
          ts' = t :: ts.set i ⟨x, .active⟩ := by
        simp only [start, List.getElem?_cons_succ] at hstart
        split at hstart
        · next x hx =>
          split at hstart
          · next hprev => exact ⟨x, hx, hprev, (Option.some.inj hstart).symm⟩
          · cases hstart
        · cases hstart
      obtain ⟨x, hx, hprev, rfl⟩ := hget
      have ht : t.pc = .done := by
        by_contra hne
        rw [chained_cons hne] at h
        cases i with
        | zero => simp [previousDone, hne] at hprev
        | succ j =>
          simp only [previousDone, List.getElem?_cons_succ, Option.any_eq_true] at hprev
          obtain ⟨t', ht', hdone⟩ := hprev
          rw [h t' (List.mem_of_getElem? ht')] at hdone
          cases hdone
      have hrest : start ts i = some (ts.set i ⟨x, .active⟩) := by
        have hprev' : previousDone ts i = true := by
          cases i with
          | zero => rfl
          | succ j => simpa only [previousDone, List.getElem?_cons_succ] using hprev
        simp only [start, hx, hprev', if_true]
      obtain ⟨hc, hf, hu, hi⟩ := ih ((chained_cons_done ht).mp h) hrest
      refine ⟨(chained_cons_done ht).mpr hc, ?_, ?_, ?_⟩
      · simpa [finished, ht] using hf
      · simpa [unfinished, ht] using hu
      · simpa [items] using hi

/-- A task that finishes is the next one in order. -/
theorem finish_chained {ts ts' : List (Task α)} (h : Chained ts) {i : Nat} {x : α}
    (hfin : finish ts i = some (x, ts')) :
    Chained ts' ∧ finished ts' = finished ts ++ [x] ∧ unfinished ts = x :: unfinished ts' ∧
      items ts' = items ts := by
  induction ts generalizing i ts' with
  | nil => cases hfin
  | cons t ts ih =>
    cases i with
    | zero =>
      obtain ⟨y, pc⟩ := t
      cases pc with
      | waiting => cases hfin
      | active =>
        obtain ⟨rfl, rfl⟩ := Prod.mk.inj (Option.some.inj hfin)
        rw [chained_cons (by simp)] at h
        have hnone := finished_of_waiting h
        unfold finished at hnone
        refine ⟨(chained_cons_done rfl).mpr (chained_of_waiting h), ?_, ?_, ?_⟩
        · simp [finished, hnone]
        · simp [unfinished]
        · simp [items]
      | done => cases hfin
    | succ i =>
      have hget : ts[i]? = some ⟨x, .active⟩ ∧ ts' = t :: ts.set i ⟨x, .done⟩ := by
        simp only [finish, List.getElem?_cons_succ] at hfin
        split at hfin
        · next y hy =>
          obtain ⟨rfl, rfl⟩ := Prod.mk.inj (Option.some.inj hfin)
          exact ⟨hy, rfl⟩
        · cases hfin
      obtain ⟨hx, rfl⟩ := hget
      -- An active task is not behind an unfinished one.
      have ht : t.pc = .done := by
        by_contra hne
        rw [chained_cons hne] at h
        cases h _ (List.mem_of_getElem? hx)
      have hrest : finish ts i = some (x, ts.set i ⟨x, .done⟩) := by
        simp only [finish, hx]
      obtain ⟨hc, hf, hu, hi⟩ := ih ((chained_cons_done ht).mp h) hrest
      refine ⟨(chained_cons_done ht).mpr hc, ?_, ?_, ?_⟩
      · simpa [finished, ht] using hf
      · simpa [unfinished, ht] using hu
      · simpa [items] using hi

/-- What is done was submitted before what is not. -/
theorem finished_append_unfinished {ts : List (Task α)} (h : Chained ts) :
    finished ts ++ unfinished ts = items ts := by
  induction ts with
  | nil => rfl
  | cons t ts ih =>
    by_cases ht : t.pc = .done
    · have hrest := ih ((chained_cons_done ht).mp h)
      simpa [finished, unfinished, items, ht] using hrest
    · have hwait := (chained_cons ht).mp h
      have hnone := finished_of_waiting hwait
      have hall : ts.filter (fun t' => t'.pc != .done) = ts := by
        apply List.filter_eq_self.mpr
        intro t' ht'
        rw [hwait t' ht']
        rfl
      unfold finished at hnone
      simp [finished, unfinished, items, ht, hnone, hall]

end Chain
