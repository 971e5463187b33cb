import Mathlib.Data.Fintype.Pigeonhole
import Mathlib.Data.Set.Finite.Basic
import Mathlib.Logic.Function.Iterate
import Mathlib.Logic.Relation

/-! # Trees in preorder

  A row is a node with its depth. `Preordered children stack rows` says that the
  rows list the trees of the stack one after the other, each parent first and
  then the trees of its children. The relation holds of finite trees only, and
  says all about the order of their nodes: what is below a node follows it as one
  block (`Preordered.exists_block`), and the blocks of a list come in its order
  (`Preordered.before`).
-/

universe u

variable {α : Type u} {children : α → List α}

/-- The rows of some trees. -/
inductive Preordered (children : α → List α) : List (α × Nat) → List (α × Nat) → Prop where
  | nil : Preordered children [] []
  | cons {a : α} {depth : Nat} {rest below after : List (α × Nat)} :
      Preordered children ((children a).map (·, depth + 1)) below →
      Preordered children rest after →
      Preordered children ((a, depth) :: rest) ((a, depth) :: (below ++ after))

/-- In the tree of a node. -/
def Preordered.Under (children : α → List α) : α → α → Prop :=
  Relation.ReflTransGen fun a b => b ∈ children a

namespace Preordered

variable {xs ys stack rows : List (α × Nat)}

theorem append {out out' : List (α × Nat)} (h : Preordered children xs out)
    (h' : Preordered children ys out') : Preordered children (xs ++ ys) (out ++ out') := by
  induction h with
  | nil => exact h'
  | cons hbelow _ _ ih =>
    rw [List.cons_append, List.cons_append, List.append_assoc]
    exact .cons hbelow ih

theorem split (h : Preordered children (xs ++ ys) rows) :
    ∃ out out', rows = out ++ out' ∧ Preordered children xs out ∧ Preordered children ys out' := by
  induction xs generalizing rows with
  | nil => exact ⟨[], rows, rfl, .nil, h⟩
  | cons x xs ih =>
    rw [List.cons_append] at h
    cases h with
    | cons hbelow hafter =>
      obtain ⟨out, out', rfl, hxs, hys⟩ := ih hafter
      refine ⟨_, out', ?_, .cons hbelow hxs, hys⟩
      rw [List.cons_append, List.append_assoc]

/-- The rows are those of the nodes in the trees. -/
theorem mem_iff (h : Preordered children stack rows) (n : α) :
    n ∈ rows.map Prod.fst ↔ ∃ x ∈ stack, Under children x.1 n := by
  induction h with
  | nil =>
    constructor
    · intro hn
      exact absurd hn List.not_mem_nil
    · rintro ⟨x, hx, -⟩
      exact absurd hx List.not_mem_nil
  | @cons a depth rest below after _ _ ihbelow ihafter =>
    rw [List.map_cons, List.mem_cons, List.map_append, List.mem_append, ihbelow, ihafter]
    constructor
    · rintro (rfl | ⟨x, hx, hn⟩ | ⟨x, hx, hn⟩)
      · exact ⟨_, List.mem_cons_self, Relation.ReflTransGen.refl⟩
      · obtain ⟨b, hb, rfl⟩ := List.mem_map.mp hx
        exact ⟨_, List.mem_cons_self, Relation.ReflTransGen.head hb hn⟩
      · exact ⟨x, List.mem_cons_of_mem _ hx, hn⟩
    · rintro ⟨x, hx, hn⟩
      rcases List.mem_cons.mp hx with rfl | hx
      · rcases Relation.ReflTransGen.cases_head hn with rfl | ⟨b, hb, hn⟩
        · exact .inl rfl
        · exact .inr (.inl ⟨(b, depth + 1), List.mem_map_of_mem hb, hn⟩)
      · exact .inr (.inr ⟨x, hx, hn⟩)

theorem mem_of_mem (h : Preordered children stack rows) {x : α × Nat} (hx : x ∈ stack) :
    x.1 ∈ rows.map Prod.fst :=
  (h.mem_iff x.1).mpr ⟨x, hx, Relation.ReflTransGen.refl⟩

/-- The tree of every row is one block. -/
theorem exists_block (h : Preordered children stack rows) {x : α × Nat} (hx : x ∈ rows) :
    ∃ before block after, rows = before ++ block ++ after ∧ Preordered children [x] block := by
  induction h with
  | nil => exact absurd hx List.not_mem_nil
  | @cons a depth rest below after hbelow hafter ihbelow ihafter =>
    rcases List.mem_cons.mp hx with rfl | hx
    · refine ⟨[], (a, depth) :: (below ++ []), after, ?_, .cons hbelow .nil⟩
      rw [List.append_nil, List.nil_append, List.cons_append]
    rcases List.mem_append.mp hx with hx | hx
    · obtain ⟨before, block, rest', rfl, hblock⟩ := ihbelow hx
      refine ⟨(a, depth) :: before, block, rest' ++ after, ?_, hblock⟩
      simp only [List.cons_append, List.append_assoc]
    · obtain ⟨before, block, rest', rfl, hblock⟩ := ihafter hx
      refine ⟨(a, depth) :: (below ++ before), block, rest', ?_, hblock⟩
      simp only [List.cons_append, List.append_assoc]

/-- The tree of an earlier entry comes before a later entry. -/
theorem before (h : Preordered children stack rows) {x y : α × Nat} (hxy : [x, y].Sublist stack)
    {n : α} (hn : Under children x.1 n) : [n, y.1].Sublist (rows.map Prod.fst) := by
  induction stack generalizing rows with
  | nil => exact absurd hxy.length_le (by simp)
  | cons z stack ih =>
    cases h with
    | @cons a depth rest below after hbelow hafter =>
      rw [← List.cons_append, List.map_append]
      cases hxy with
      | cons _ hxy => exact (ih hafter hxy).trans (List.sublist_append_right _ _)
      | cons_cons _ hy =>
        have hblock : Preordered children [(a, depth)] ((a, depth) :: (below ++ [])) :=
          .cons hbelow .nil
        rw [List.append_nil] at hblock
        have hfirst : n ∈ ((a, depth) :: below).map Prod.fst :=
          (hblock.mem_iff n).mpr ⟨_, List.mem_singleton_self _, hn⟩
        have hsecond := hafter.mem_of_mem (List.singleton_sublist.mp hy)
        exact (List.singleton_sublist.mpr hfirst).append (List.singleton_sublist.mpr hsecond)

/-- A node comes before what else is in its tree. -/
theorem root_before {a n : α} {depth : Nat} (h : Preordered children [(a, depth)] rows)
    (hn : Under children a n) (hne : n ≠ a) : [a, n].Sublist (rows.map Prod.fst) := by
  have hmem := (h.mem_iff n).mpr ⟨_, List.mem_singleton_self _, hn⟩
  cases h with
  | cons hbelow hafter =>
    rw [List.map_cons] at hmem ⊢
    rcases List.mem_cons.mp hmem with heq | hmem
    · exact absurd heq hne
    · exact (List.singleton_sublist.mpr hmem).cons_cons a

/-- The tree of a child comes before the next child. -/
theorem child_before {a b c n : α} {depth : Nat} (h : Preordered children [(a, depth)] rows)
    (hbc : [b, c].Sublist (children a)) (hn : Under children b n) :
    [n, c].Sublist (rows.map Prod.fst) := by
  cases h with
  | @cons _ _ _ below after hbelow hafter =>
    have hpair : [(b, depth + 1), (c, depth + 1)].Sublist ((children a).map (·, depth + 1)) :=
      hbc.map fun x => (x, depth + 1)
    rw [List.map_cons, List.map_append]
    exact ((hbelow.before hpair hn).trans (List.sublist_append_left _ _)).cons a

end Preordered

/-! ### Cycles -/

/-- Whoever goes up for ever among finitely many enters a cycle. -/
theorem exists_cycle_above {r : α → α → Prop} {S : Set α} (hfinite : S.Finite)
    (hup : ∀ x ∈ S, ∃ p ∈ S, r p x) {x : α} (hx : x ∈ S) :
    ∃ c, Relation.TransGen r c c ∧ Relation.ReflTransGen r c x := by
  have hparent : ∀ y : S, ∃ p : S, r p y := fun y =>
    let ⟨p, hp, hr⟩ := hup y y.2
    ⟨⟨p, hp⟩, hr⟩
  choose up hup using hparent
  have hstep (k : Nat) (y : S) : Relation.TransGen r (up^[k + 1] y) y := by
    induction k with
    | zero => exact .single (hup y)
    | succ k ih =>
      rw [Function.iterate_succ_apply']
      exact .head (hup _) ih
  have hback (k : Nat) (y : S) : Relation.ReflTransGen r (up^[k] y) y := by
    cases k with
    | zero => exact Relation.ReflTransGen.refl
    | succ k => exact (hstep k y).to_reflTransGen
  have : Finite S := hfinite
  obtain ⟨i, j, hne, heq⟩ := Finite.exists_ne_map_eq_of_infinite fun k => up^[k] ⟨x, hx⟩
  -- The later of two visits to one place is above the earlier one.
  have hcycle {i j : Nat} (hlt : i < j) (heq : up^[i] ⟨x, hx⟩ = up^[j] ⟨x, hx⟩) :
      ∃ c, Relation.TransGen r c c ∧ Relation.ReflTransGen r c x := by
    obtain ⟨k, rfl⟩ : ∃ k, j = k + 1 + i := ⟨j - i - 1, by omega⟩
    refine ⟨up^[i] ⟨x, hx⟩, ?_, hback i _⟩
    have hloop := hstep k (up^[i] ⟨x, hx⟩)
    rw [← Function.iterate_add_apply, ← heq] at hloop
    exact hloop
  rcases Nat.lt_or_gt_of_ne hne with hlt | hgt
  · exact hcycle hlt heq
  · exact hcycle hgt heq.symm
