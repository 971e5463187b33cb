import Mathlib.Data.List.Perm.Basic

/-! # Pools

  Resources in use by a list of tasks, at most one by each task, and permits
  that pass between a semaphore and the tasks. A step of a system stores one
  task again; the lemmas say what that means for all of them.
-/

namespace Pool

universe u v

variable {Task : Type u} {Resource : Type v}

/-- Storing one task again changes one element up to the order. -/
theorem exists_perm_set {tasks : List Task} {k : Nat} {x : Task} (y : Task)
    (h : tasks[k]? = some x) :
    ∃ rest, tasks.Perm (x :: rest) ∧ (tasks.set k y).Perm (y :: rest) := by
  induction tasks generalizing k with
  | nil => simp at h
  | cons z zs ih =>
    cases k with
    | zero =>
      obtain rfl : z = x := by simpa using h
      exact ⟨zs, .refl _, .refl _⟩
    | succ k =>
      obtain ⟨rest, hold, hnew⟩ := ih (by simpa using h)
      exact ⟨z :: rest, (hold.cons z).trans (.swap x z rest),
        (hnew.cons z).trans (.swap y z rest)⟩

/-- What stands where after one task joined. -/
theorem getElem?_snoc {tasks : List Task} {k : Nat} {x y : Task}
    (h : (tasks ++ [x])[k]? = some y) :
    tasks[k]? = some y ∨ k = tasks.length ∧ y = x := by
  by_cases hlt : k < tasks.length
  · rw [List.getElem?_append_left hlt] at h
    exact Or.inl h
  · rw [List.getElem?_append_right (Nat.le_of_not_lt hlt), List.getElem?_singleton] at h
    split at h
    · next hzero =>
      have hk : k = tasks.length := by omega
      exact Or.inr ⟨hk, (Option.some.inj h).symm⟩
    · cases h

/-- What stands where after one task was stored again. -/
theorem getElem?_set_cases {tasks : List Task} {i k : Nat} {x y z : Task}
    (hi : tasks[i]? = some z) (h : (tasks.set i x)[k]? = some y) :
    i ≠ k ∧ tasks[k]? = some y ∨ i = k ∧ y = x := by
  by_cases hik : i = k
  · subst hik
    have hlt : i < tasks.length := (List.getElem?_eq_some_iff.mp hi).1
    rw [List.getElem?_set_self hlt] at h
    exact Or.inr ⟨rfl, (Option.some.inj h).symm⟩
  · rw [List.getElem?_set_ne hik] at h
    exact Or.inl ⟨hik, h⟩

/-! ### Resources -/

/-- The resources in use are those the tasks hold. -/
def Held (held : Task → Option Resource) (pool : List Resource) (tasks : List Task) : Prop :=
  pool.Perm (tasks.filterMap held)

/-- How the resources in use follow one task that held `x` and then holds `y`. -/
inductive Trade [DecidableEq Resource] (pool : List Resource) (x y : Option Resource) :
    List Resource → Prop where
  | keep (h : y = x) : Trade pool x y pool
  | take (r : Resource) (hx : x = none) (hy : y = some r) : Trade pool x y (pool ++ [r])
  | give (r : Resource) (hx : x = some r) (hy : y = none) : Trade pool x y (pool.erase r)

section

variable {held : Task → Option Resource} {pool : List Resource} {tasks : List Task}

theorem held_nil : Held held [] [] := .refl _

/-- A task that holds nothing joins. -/
theorem Held.snoc (h : Held held pool tasks) {y : Task} (hy : held y = none) :
    Held held pool (tasks ++ [y]) := by
  unfold Held
  rw [List.filterMap_append, List.filterMap_cons_none hy, List.filterMap_nil, List.append_nil]
  exact h

theorem Held.set [DecidableEq Resource] (h : Held held pool tasks) {k : Nat} {x y : Task}
    {pool' : List Resource} (hk : tasks[k]? = some x)
    (htrade : Trade pool (held x) (held y) pool') : Held held pool' (tasks.set k y) := by
  obtain ⟨rest, hold, hnew⟩ := exists_perm_set y hk
  have hpool : pool.Perm ((x :: rest).filterMap held) := h.trans (hold.filterMap held)
  suffices pool'.Perm ((y :: rest).filterMap held) from this.trans (hnew.filterMap held).symm
  cases htrade with
  | keep heq => rwa [List.filterMap_cons, heq, ← List.filterMap_cons]
  | take r hx hy =>
    rw [List.filterMap_cons_none hx] at hpool
    rw [List.filterMap_cons_some hy]
    exact (List.perm_append_singleton r pool).trans (hpool.cons r)
  | give r hx hy =>
    rw [List.filterMap_cons_some hx] at hpool
    rw [List.filterMap_cons_none hy]
    have herase := hpool.erase r
    rwa [List.erase_cons_head] at herase

theorem Held.mem (h : Held held pool tasks) {r : Resource} :
    r ∈ pool ↔ ∃ t ∈ tasks, held t = some r := by
  rw [h.mem_iff, List.mem_filterMap]

/-- Tasks that hold nothing leave nothing in use. -/
theorem Held.eq_nil (h : Held held pool tasks) (hnone : ∀ t ∈ tasks, held t = none) :
    pool = [] := by
  refine List.eq_nil_iff_forall_not_mem.mpr fun r hr => ?_
  obtain ⟨t, ht, hsome⟩ := h.mem.mp hr
  rw [hnone t ht] at hsome
  cases hsome

/-- There are no more resources in use than tasks that may hold one. -/
theorem Held.length_le (h : Held held pool tasks) {may : Task → Bool}
    (hmay : ∀ t ∈ tasks, held t ≠ none → may t = true) : pool.length ≤ tasks.countP may := by
  rw [h.length_eq, List.length_filterMap_eq_countP]
  refine List.countP_mono_left fun t ht hsome => hmay t ht ?_
  exact Option.isSome_iff_ne_none.mp hsome

end

/-! ### Permits -/

/-- The free permits and the tasks with a permit make up the semaphore. -/
def Full (total free : Nat) (permit : Task → Bool) (tasks : List Task) : Prop :=
  free + tasks.countP permit = total

section

variable {total free : Nat} {permit : Task → Bool} {tasks : List Task}

theorem full_nil : Full total total permit [] := rfl

theorem Full.snoc (h : Full total free permit tasks) {y : Task} (hy : permit y = false) :
    Full total free permit (tasks ++ [y]) := by
  unfold Full
  rw [List.countP_append, List.countP_singleton, hy]
  exact h

theorem Full.set (h : Full total free permit tasks) {k : Nat} {x y : Task} {free' : Nat}
    (hk : tasks[k]? = some x)
    (hmove : free' + (permit y).toNat = free + (permit x).toNat) :
    Full total free' permit (tasks.set k y) := by
  obtain ⟨rest, hold, hnew⟩ := exists_perm_set y hk
  have hcount : ∀ z : Task,
      (z :: rest).countP permit = rest.countP permit + (permit z).toNat := by
    intro z
    rw [List.countP_cons]
    cases permit z <;> rfl
  unfold Full at h ⊢
  rw [hold.countP_eq, hcount] at h
  rw [hnew.countP_eq, hcount]
  omega

end

end Pool
