import Mathlib.Data.List.Basic

/-! # Sequences of checks

  A check is a computation that returns nothing or an error. What a sequence or
  a loop of checks establishes when it passes, whatever the errors are.
-/

namespace Checks

variable {α β ε : Type}

theorem bind_eq_ok {x : Except ε α} {f : α → Except ε β} {b : β} (h : x.bind f = .ok b) :
    ∃ a, x = .ok a ∧ f a = .ok b := by
  cases x with
  | error e => cases h
  | ok a => exact ⟨a, rfl, h⟩

theorem eq_ok_of_toOption {x : Except ε α} {a : α} (h : x.toOption = some a) : x = .ok a := by
  cases x with
  | error e => cases h
  | ok b => exact congrArg Except.ok (Option.some.inj h)

/-- One check after another. -/
theorem seq_eq_ok {x : Except ε Unit} {f : Unit → Except ε β} {b : β} (h : x.bind f = .ok b) :
    x = .ok () ∧ f () = .ok b := by
  obtain ⟨u, hx, hf⟩ := bind_eq_ok h
  exact ⟨hx, hf⟩

theorem forM_ok {f : α → Except ε Unit} {xs : List α} (h : ∀ x ∈ xs, f x = .ok ()) :
    xs.forM f = .ok () := by
  induction xs with
  | nil => rfl
  | cons x xs ih =>
    show (f x).bind (fun _ => xs.forM f) = .ok ()
    rw [h x List.mem_cons_self]
    exact ih fun y hy => h y (List.mem_cons_of_mem x hy)

/-- A loop passes when every round does. -/
theorem forM_eq_ok {f : α → Except ε Unit} {xs : List α} :
    xs.forM f = .ok () ↔ ∀ x ∈ xs, f x = .ok () := by
  refine ⟨fun h => ?_, forM_ok⟩
  induction xs with
  | nil =>
    intro x hx
    cases hx
  | cons y xs ih =>
    have hcons : (f y).bind (fun _ => xs.forM f) = .ok () := h
    obtain ⟨hy, hrest⟩ := seq_eq_ok hcons
    intro x hx
    rcases List.mem_cons.mp hx with rfl | hx
    · exact hy
    · exact ih hrest x hx

/-! ### Runs that can fail -/

variable {f : β → α → Except ε β} {b d : β}

/-- A run over two lists stops in between. -/
theorem foldlM_append_ok {xs ys : List α} :
    (xs ++ ys).foldlM f b = .ok d ↔ ∃ c, xs.foldlM f b = .ok c ∧ ys.foldlM f c = .ok d := by
  rw [List.foldlM_append]
  constructor
  · exact bind_eq_ok
  · intro h
    obtain ⟨c, hxs, hys⟩ := h
    rw [hxs]
    exact hys

theorem foldlM_cons_ok {x : α} {xs : List α} :
    (x :: xs).foldlM f b = .ok d ↔ ∃ c, f b x = .ok c ∧ xs.foldlM f c = .ok d := by
  rw [List.foldlM_cons]
  constructor
  · exact bind_eq_ok
  · intro h
    obtain ⟨c, hx, hxs⟩ := h
    rw [hx]
    exact hxs

/-- The last step of a run. -/
theorem foldlM_concat_ok {x : α} {xs : List α} :
    (xs ++ [x]).foldlM f b = .ok d ↔ ∃ c, xs.foldlM f b = .ok c ∧ f c x = .ok d := by
  rw [foldlM_append_ok]
  constructor
  · intro h
    obtain ⟨c, hxs, hlast⟩ := h
    obtain ⟨c', hx, hnil⟩ := foldlM_cons_ok.mp hlast
    obtain rfl : c' = d := Except.ok.inj hnil
    exact ⟨c, hxs, hx⟩
  · intro h
    obtain ⟨c, hxs, hx⟩ := h
    exact ⟨c, hxs, foldlM_cons_ok.mpr ⟨d, hx, rfl⟩⟩

end Checks
