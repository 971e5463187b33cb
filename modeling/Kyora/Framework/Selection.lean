import Mathlib.Data.List.Basic
import Mathlib.Algebra.BigOperators.Group.List.Basic
import Mathlib.Algebra.Order.BigOperators.Group.List
import Mathlib.Algebra.Order.Ring.Nat

/-! # Bounded selection from a queue

  A delivery looks at the elements of a queue that a predicate selects, in
  queue order, and takes the longest prefix of them that fits a budget.
  Everything else stays where it was.

  * `fitting`: the greedy prefix, which is the longest one that `Fits`.
  * `removeFirst pick n`: the queue without its first `n` selected elements.
-/

namespace Selection

variable {α : Type*}

/-! ### The longest fitting prefix -/

/-- Total size of a list of items. -/
def load (size : α → Nat) (xs : List α) : Nat := (xs.map size).sum

@[simp] theorem load_nil (size : α → Nat) : load size [] = 0 := rfl

@[simp] theorem load_cons (size : α → Nat) (x : α) (xs : List α) :
    load size (x :: xs) = size x + load size xs := rfl

@[simp] theorem load_append (size : α → Nat) (xs ys : List α) :
    load size (xs ++ ys) = load size xs + load size ys := by
  simp [load]

/-- A list that may be handed over at `used` of `budget`: nothing, a single
    item at the very start, or whatever stays within the budget. -/
def Fits (size : α → Nat) (budget used : Nat) (xs : List α) : Prop :=
  xs = [] ∨ (used = 0 ∧ xs.length = 1) ∨ used + load size xs ≤ budget

/-- Take items while they fit; at the start, `fresh`, the first one always
    goes. -/
def fitting (size : α → Nat) (budget : Nat) : Bool → Nat → List α → List α
  | _, _, [] => []
  | fresh, used, x :: xs =>
    if fresh || used + size x ≤ budget then
      x :: fitting size budget false (used + size x) xs
    else []

variable {size : α → Nat} {budget : Nat}

theorem fitting_isPrefix (fresh : Bool) (used : Nat) (xs : List α) :
    fitting size budget fresh used xs <+: xs := by
  induction xs generalizing fresh used with
  | nil => exact List.prefix_rfl
  | cons x xs ih =>
    unfold fitting
    split
    · exact (List.prefix_cons_inj x).mpr (ih false (used + size x))
    · exact List.nil_prefix

/-- Once something was taken the rest stays within the budget. -/
theorem fitting_load {used : Nat} (xs : List α) (h : fitting size budget false used xs ≠ []) :
    used + load size (fitting size budget false used xs) ≤ budget := by
  induction xs generalizing used with
  | nil => exact absurd rfl h
  | cons x xs ih =>
    unfold fitting at h ⊢
    by_cases hx : used + size x ≤ budget
    · simp only [Bool.false_or, decide_eq_true hx, if_true, load_cons]
      by_cases hrest : fitting size budget false (used + size x) xs = []
      · rw [hrest, load_nil]
        omega
      · have := ih hrest
        omega
    · simp [hx] at h

theorem fitting_fits (used : Nat) (xs : List α) :
    Fits size budget used (fitting size budget (used == 0) used xs) := by
  by_cases hused : used = 0
  · subst hused
    match xs with
    | [] => exact Or.inl rfl
    | x :: xs =>
      have hfirst : fitting size budget (0 == 0) 0 (x :: xs) =
          x :: fitting size budget false (0 + size x) xs := by simp [fitting]
      rw [hfirst]
      by_cases hrest : fitting size budget false (0 + size x) xs = []
      · exact Or.inr (Or.inl ⟨rfl, by rw [hrest]; rfl⟩)
      · have hload := fitting_load xs hrest
        exact Or.inr (Or.inr (by rw [load_cons]; omega))
  · have hfresh : (used == 0) = false := by simpa using hused
    rw [hfresh]
    by_cases hnil : fitting size budget false used xs = []
    · exact Or.inl hnil
    · exact Or.inr (Or.inr (fitting_load xs hnil))

/-- A prefix that stays within the budget is not longer than the greedy one. -/
theorem length_le_fitting (fresh : Bool) {used : Nat} {xs p : List α} (hp : p <+: xs)
    (h : used + load size p ≤ budget) :
    p.length ≤ (fitting size budget fresh used xs).length := by
  induction xs generalizing fresh used p with
  | nil => simp [List.prefix_nil.mp hp]
  | cons x xs ih =>
    match p with
    | [] => exact Nat.zero_le _
    | y :: p =>
      obtain ⟨rfl, htail⟩ := List.cons_prefix_cons.mp hp
      rw [load_cons] at h
      have hy : used + size y ≤ budget := by omega
      unfold fitting
      rw [if_pos (by simp [hy])]
      have hrest : used + size y + load size p ≤ budget := by omega
      have hlen := ih false htail hrest
      simp only [List.length_cons]
      omega

/-- The greedy prefix is the longest prefix that fits. -/
theorem fitting_longest (used : Nat) {xs p : List α} (hp : p <+: xs)
    (h : Fits size budget used p) :
    p.length ≤ (fitting size budget (used == 0) used xs).length := by
  rcases h with rfl | ⟨rfl, hone⟩ | hload
  · exact Nat.zero_le _
  · match p, hone with
    | [x], _ =>
      obtain ⟨xs', rfl⟩ := hp
      simp [fitting]
  · exact length_le_fitting _ hp hload

/-- At the start a non-empty queue gives up at least its first item. -/
theorem fitting_fresh (x : α) (xs : List α) :
    ∃ ys, fitting size budget true 0 (x :: xs) = x :: ys :=
  ⟨fitting size budget false (0 + size x) xs, by simp [fitting]⟩

/-! ### What stays behind -/

/-- The queue without its first `n` selected elements. -/
def removeFirst (pick : α → Bool) : Nat → List α → List α
  | 0, xs => xs
  | _ + 1, [] => []
  | n + 1, x :: xs =>
    if pick x then removeFirst pick n xs else x :: removeFirst pick (n + 1) xs

variable {pick : α → Bool}

@[simp] theorem removeFirst_zero (xs : List α) : removeFirst pick 0 xs = xs := by
  cases xs <;> rfl

@[simp] theorem removeFirst_nil (n : Nat) : removeFirst pick n ([] : List α) = [] := by
  cases n <;> rfl

theorem removeFirst_cons_of_neg {x : α} (hx : pick x = false) (n : Nat) (xs : List α) :
    removeFirst pick n (x :: xs) = x :: removeFirst pick n xs := by
  cases n with
  | zero => simp
  | succ n => simp [removeFirst, hx]

theorem removeFirst_cons_of_pos {x : α} (hx : pick x = true) (n : Nat) (xs : List α) :
    removeFirst pick (n + 1) (x :: xs) = removeFirst pick n xs := by
  simp [removeFirst, hx]

theorem removeFirst_sublist (n : Nat) (xs : List α) : (removeFirst pick n xs).Sublist xs := by
  induction xs generalizing n with
  | nil => simp
  | cons x xs ih =>
    match n with
    | 0 => simp
    | n + 1 =>
      unfold removeFirst
      split
      · exact (ih n).cons x
      · exact (ih (n + 1)).cons_cons x

/-- The first `n` selected elements and the rest make up the queue. -/
theorem removeFirst_perm (n : Nat) (xs : List α) :
    xs.Perm ((xs.filter pick).take n ++ removeFirst pick n xs) := by
  induction xs generalizing n with
  | nil => simp
  | cons x xs ih =>
    match n with
    | 0 => simp
    | n + 1 =>
      by_cases hx : pick x = true
      · rw [List.filter_cons_of_pos hx, List.take_succ_cons, removeFirst_cons_of_pos hx]
        exact (ih n).cons x
      · rw [Bool.not_eq_true] at hx
        rw [List.filter_cons_of_neg (by simp [hx]), removeFirst_cons_of_neg hx]
        exact ((ih (n + 1)).cons x).trans List.perm_middle.symm

/-- Among elements of one class, all selected or none, those that leave are
    ahead of those that stay. -/
theorem filter_take_append_filter_removeFirst {q : α → Bool}
    (hq : (∀ x, q x = true → pick x = true) ∨ ∀ x, q x = true → pick x = false)
    (n : Nat) (xs : List α) :
    ((xs.filter pick).take n).filter q ++ (removeFirst pick n xs).filter q =
      xs.filter q := by
  induction xs generalizing n with
  | nil => simp
  | cons x xs ih =>
    match n with
    | 0 => simp
    | n + 1 =>
      by_cases hx : pick x = true
      · rw [List.filter_cons_of_pos hx, List.take_succ_cons, removeFirst_cons_of_pos hx]
        by_cases hqx : q x = true
        · rw [List.filter_cons_of_pos hqx, List.filter_cons_of_pos hqx, List.cons_append, ih]
        · rw [List.filter_cons_of_neg hqx, List.filter_cons_of_neg hqx, ih]
      · rw [Bool.not_eq_true] at hx
        rw [List.filter_cons_of_neg (by simp [hx]), removeFirst_cons_of_neg hx]
        by_cases hqx : q x = true
        · -- An unselected element of the class: nothing of the class is taken.
          have hnone : ∀ y, q y = true → pick y = false :=
            hq.resolve_left fun h => by rw [h x hqx] at hx; cases hx
          have htaken : ((xs.filter pick).take (n + 1)).filter q = [] := by
            rw [List.filter_eq_nil_iff]
            intro y hy hqy
            have hpy := (List.mem_filter.mp (List.mem_of_mem_take hy)).2
            rw [hnone y hqy] at hpy
            cases hpy
          have hrest := ih (n + 1)
          rw [htaken, List.nil_append] at hrest
          rw [htaken, List.filter_cons_of_pos hqx, List.filter_cons_of_pos hqx, hrest]
          rfl
        · rw [List.filter_cons_of_neg hqx, List.filter_cons_of_neg hqx, ih]

end Selection
