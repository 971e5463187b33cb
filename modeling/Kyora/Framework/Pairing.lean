import Mathlib.Data.List.Basic

/-! # Openings and their answers

  Sequences in which every opening element is answered by the next one. What
  is recorded in whole pairs stays paired, and so does a sequence from which
  only elements outside the pairs are left out.
-/

namespace Pairing

universe u v

section

variable {α : Type u} (opens answers : α → Prop) (closes : α → α → Prop)

/-- A sequence of single elements and of openings with their answers. -/
inductive Paired : List α → Prop where
  | nil : Paired []
  | single {x : α} {rest : List α} (hopens : ¬ opens x) (hanswers : ¬ answers x)
      (h : Paired rest) : Paired (x :: rest)
  | pair {x y : α} {rest : List α} (hx : opens x) (hxa : ¬ answers x) (hy : answers y)
      (hyo : ¬ opens y) (hclose : closes x y) (h : Paired rest) : Paired (x :: y :: rest)

end

section

variable {α : Type u} {opens answers : α → Prop} {closes : α → α → Prop}

theorem Paired.append {xs ys : List α} (h : Paired opens answers closes xs)
    (h' : Paired opens answers closes ys) : Paired opens answers closes (xs ++ ys) := by
  induction h with
  | nil => exact h'
  | single hopens hanswers _ ih => exact .single hopens hanswers ih
  | pair hx hxa hy hyo hclose _ ih => exact .pair hx hxa hy hyo hclose ih

/-- An element that neither opens nor answers may follow. -/
theorem Paired.snoc {xs : List α} (h : Paired opens answers closes xs) {x : α}
    (hopens : ¬ opens x) (hanswers : ¬ answers x) :
    Paired opens answers closes (xs ++ [x]) :=
  h.append (.single hopens hanswers .nil)

/-- An opening is immediately followed by an element that closes it. -/
theorem Paired.followed {xs : List α} (h : Paired opens answers closes xs) {pre rest : List α}
    {x : α} (hxs : xs = pre ++ x :: rest) (hx : opens x) :
    ∃ y rest', rest = y :: rest' ∧ answers y ∧ closes x y := by
  induction h generalizing pre with
  | nil => simp at hxs
  | single hopens _ _ ih =>
    cases pre with
    | nil =>
      obtain ⟨rfl, rfl⟩ := List.cons.inj hxs
      exact absurd hx hopens
    | cons p pre => exact ih (List.cons.inj hxs).2
  | @pair x' y' rest' _ _ hy hyo hclose _ ih =>
    -- Either this is the opening of the first pair, or it comes after the pair.
    match pre with
    | [] =>
      obtain ⟨rfl, rfl⟩ := List.cons.inj hxs
      exact ⟨y', rest', rfl, hy, hclose⟩
    | [p] =>
      obtain ⟨-, htail⟩ := List.cons.inj hxs
      obtain ⟨rfl, -⟩ := List.cons.inj htail
      exact absurd hx hyo
    | p :: q :: pre => exact ih (List.cons.inj (List.cons.inj hxs).2).2

/-- An answer immediately follows the opening it closes. -/
theorem Paired.preceded {xs : List α} (h : Paired opens answers closes xs) {pre rest : List α}
    {y : α} (hxs : xs = pre ++ y :: rest) (hy : answers y) :
    ∃ pre' x, pre = pre' ++ [x] ∧ opens x ∧ closes x y := by
  induction h generalizing pre with
  | nil => simp at hxs
  | single _ hanswers _ ih =>
    cases pre with
    | nil =>
      obtain ⟨rfl, rfl⟩ := List.cons.inj hxs
      exact absurd hy hanswers
    | cons p pre =>
      obtain ⟨pre', x, rfl, hx, hclose⟩ := ih (List.cons.inj hxs).2
      exact ⟨p :: pre', x, rfl, hx, hclose⟩
  | @pair x' y' rest' hx hxa _ _ hclose _ ih =>
    match pre with
    | [] =>
      obtain ⟨rfl, rfl⟩ := List.cons.inj hxs
      exact absurd hy hxa
    | [p] =>
      obtain ⟨rfl, htail⟩ := List.cons.inj hxs
      obtain ⟨rfl, -⟩ := List.cons.inj htail
      exact ⟨[], x', rfl, hx, hclose⟩
    | p :: q :: pre =>
      obtain ⟨pre', x, rfl, hx, hclose⟩ := ih (List.cons.inj (List.cons.inj hxs).2).2
      exact ⟨p :: q :: pre', x, rfl, hx, hclose⟩

/-- The last element of a list is its head or lies in its tail. -/
theorem last_of_cons {x w : α} {pre pre' : List α} (h : x :: pre = pre' ++ [w]) :
    (pre = [] ∧ w = x) ∨ ∃ q, pre = q ++ [w] := by
  cases pre' with
  | nil =>
    obtain ⟨rfl, hpre⟩ := List.cons.inj h
    exact Or.inl ⟨hpre, rfl⟩
  | cons p q =>
    obtain ⟨-, hpre⟩ := List.cons.inj h
    exact Or.inr ⟨q, hpre⟩

/-- What is followed and preceded that way is paired, if nothing opens and
    answers at once. -/
theorem paired_of {xs : List α} (hdisjoint : ∀ x, opens x → ¬ answers x)
    (hfollowed : ∀ pre x rest, xs = pre ++ x :: rest → opens x →
      ∃ y rest', rest = y :: rest' ∧ answers y ∧ closes x y)
    (hpreceded : ∀ pre y rest, xs = pre ++ y :: rest → answers y →
      ∃ pre' x, pre = pre' ++ [x] ∧ opens x ∧ closes x y) :
    Paired opens answers closes xs := by
  match xs with
  | [] => exact .nil
  | x :: rest =>
    have hxa : ¬ answers x := by
      intro hx
      obtain ⟨pre', _, hnil, -⟩ := hpreceded [] x rest rfl hx
      simp at hnil
    by_cases hx : opens x
    · obtain ⟨y, rest, rfl, hy, hclose⟩ := hfollowed [] x rest rfl hx
      have hyo : ¬ opens y := fun hyo => hdisjoint y hyo hy
      refine .pair hx hxa hy hyo hclose (paired_of hdisjoint ?_ ?_)
      · intro pre z tail hsplit
        exact hfollowed (x :: y :: pre) z tail (by rw [hsplit]; rfl)
      · intro pre z tail hsplit hz
        obtain ⟨pre', w, hpre, hw, hwz⟩ :=
          hpreceded (x :: y :: pre) z tail (by rw [hsplit]; rfl) hz
        -- The opening of `z` is not the answer before it.
        rcases last_of_cons hpre with ⟨hnil, -⟩ | ⟨q, hq⟩
        · cases hnil
        · rcases last_of_cons hq with ⟨-, rfl⟩ | ⟨q', hq'⟩
          · exact absurd hw hyo
          · exact ⟨q', w, hq', hw, hwz⟩
    · refine .single hx hxa (paired_of hdisjoint ?_ ?_)
      · intro pre z tail hsplit
        exact hfollowed (x :: pre) z tail (by rw [hsplit]; rfl)
      · intro pre z tail hsplit hz
        obtain ⟨pre', w, hpre, hw, hwz⟩ := hpreceded (x :: pre) z tail (by rw [hsplit]; rfl) hz
        rcases last_of_cons hpre with ⟨-, rfl⟩ | ⟨q, hq⟩
        · exact absurd hw hx
        · exact ⟨q, w, hq, hw, hwz⟩
termination_by xs.length

end

section

variable {α : Type u} {β : Type v} {opens answers : α → Prop} {closes : α → α → Prop}
  {opens' answers' : β → Prop} {closes' : β → β → Prop}

/-- Pairing only looks at the images. -/
theorem Paired.of_map {g : β → α} {xs : List β}
    (h : Paired opens answers closes (xs.map g)) :
    Paired (fun x => opens (g x)) (fun x => answers (g x)) (fun x y => closes (g x) (g y)) xs := by
  generalize hxs : xs.map g = ys at h
  induction h generalizing xs with
  | nil =>
    rw [List.map_eq_nil_iff.mp hxs]
    exact .nil
  | single hopens hanswers _ ih =>
    obtain ⟨x, rest, rfl, rfl, hrest⟩ := List.map_eq_cons_iff.mp hxs
    exact .single hopens hanswers (ih hrest)
  | pair hx hxa hy hyo hclose _ ih =>
    obtain ⟨x, tail, rfl, rfl, htail⟩ := List.map_eq_cons_iff.mp hxs
    obtain ⟨y, rest, rfl, rfl, hrest⟩ := List.map_eq_cons_iff.mp htail
    exact .pair hx hxa hy hyo hclose (ih hrest)

/-- A translation of single elements that keeps every opening and every answer. -/
structure Keeps (opens answers : α → Prop) (closes : α → α → Prop)
    (opens' answers' : β → Prop) (closes' : β → β → Prop) (f : α → Option β) : Prop where
  kept : ∀ x, opens x ∨ answers x → (f x).isSome
  opens : ∀ x x', f x = some x' → (opens' x' ↔ opens x)
  answers : ∀ x x', f x = some x' → (answers' x' ↔ answers x)
  closes : ∀ x y x' y', f x = some x' → f y = some y' → closes x y → closes' x' y'

theorem Paired.filterMap {f : α → Option β}
    (hf : Keeps opens answers closes opens' answers' closes' f) {xs : List α}
    (h : Paired opens answers closes xs) :
    Paired opens' answers' closes' (xs.filterMap f) := by
  induction h with
  | nil => exact .nil
  | @single x rest hopens hanswers _ ih =>
    cases hx : f x with
    | none => rwa [List.filterMap_cons_none hx]
    | some x' =>
      rw [List.filterMap_cons_some hx]
      exact .single (fun h => hopens ((hf.opens x x' hx).mp h))
        (fun h => hanswers ((hf.answers x x' hx).mp h)) ih
  | @pair x y rest hx hxa hy hyo hclose _ ih =>
    obtain ⟨x', hx'⟩ := Option.isSome_iff_exists.mp (hf.kept x (Or.inl hx))
    obtain ⟨y', hy'⟩ := Option.isSome_iff_exists.mp (hf.kept y (Or.inr hy))
    rw [List.filterMap_cons_some hx', List.filterMap_cons_some hy']
    exact .pair ((hf.opens x x' hx').mpr hx) (fun h => hxa ((hf.answers x x' hx').mp h))
      ((hf.answers y y' hy').mpr hy) (fun h => hyo ((hf.opens y y' hy').mp h))
      (hf.closes x y x' y' hx' hy' hclose) ih

end

end Pairing
