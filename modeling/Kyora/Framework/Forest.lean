import Mathlib.Logic.Relation
import Mathlib.Algebra.BigOperators.Group.List.Basic
import Mathlib.Algebra.Order.BigOperators.Group.List
import Mathlib.Algebra.Order.Ring.Nat
import Mathlib.Tactic.Abel
import Mathlib.Data.List.Nodup

/-! # Forests given by parent links

  Nodes are natural numbers; a node's link is `none` for an unknown node,
  `some none` for a root and `some (some p)` for a node below `p`. A forest
  is `Ordered` when every parent is a known node with a smaller number, the
  shape of any tree that is built by appending nodes. It is `Ranked` when some
  rank grows from each parent to its children, the shape of any forest without
  cycles.

  * `climb`: the walk from a node to its root, with fuel.
  * `Below i n`: `n` lies in the subtree of `i`.
  * `total`: the sum of a weight over the items placed in a subtree, and its
    split into the items at the node itself and the totals of its children.
-/

namespace Forest

/-- Parent links of a forest. -/
abbrev Links : Type := Nat → Option (Option Nat)

/-- Every parent is known and smaller than its child. -/
def Ordered (up : Links) : Prop :=
  ∀ i p, up i = some (some p) → p < i ∧ (up p).isSome

/-- Every parent is known, and the rank grows from a parent to its child. -/
def Ranked (up : Links) (rank : Nat → Nat) : Prop :=
  ∀ i p, up i = some (some p) → rank p < rank i ∧ (up p).isSome

/-- In an ordered forest a node's number is its rank. -/
theorem Ordered.ranked {up : Links} (h : Ordered up) : Ranked up id := h

/-- `p` is the parent of `i`. -/
def IsParent (up : Links) (i p : Nat) : Prop := up i = some (some p)

/-- `n` lies in the subtree of `i`. -/
def Below (up : Links) (i n : Nat) : Prop := Relation.ReflTransGen (IsParent up) n i

/-- The walk from a node along parent links. `none` when the fuel runs out or
    an unknown node is met. -/
def climb (up : Links) : Nat → Option Nat → Option (List Nat)
  | _, none => some []
  | 0, some _ => none
  | fuel + 1, some id =>
    match up id with
    | none => none
    | some next => (climb up fuel next).map (id :: ·)

/-! ### The walk -/

section climb

variable {up : Links}

theorem climb_succ {fuel id : Nat} {next : Option Nat} (h : up id = some next) :
    climb up (fuel + 1) (some id) = (climb up fuel next).map (id :: ·) := by
  simp [climb, h]

/-- A successful walk from a node starts with it and goes on from its link. -/
theorem climb_eq_some {fuel id : Nat} {l : List Nat}
    (h : climb up fuel (some id) = some l) :
    ∃ fuel' next rest, fuel = fuel' + 1 ∧ up id = some next ∧
      climb up fuel' next = some rest ∧ l = id :: rest := by
  match fuel, h with
  | 0, h => simp [climb] at h
  | fuel + 1, h =>
    match hup : up id with
    | none => simp [climb, hup] at h
    | some next =>
      rw [climb_succ hup, Option.map_eq_some_iff] at h
      obtain ⟨rest, hrest, rfl⟩ := h
      exact ⟨fuel, next, rest, rfl, rfl, hrest, rfl⟩

/-- A fuel above the node's rank is enough. -/
theorem climb_isSome {rank : Nat → Nat} (hup : Ranked up rank) {fuel id : Nat}
    (hid : (up id).isSome) (hfuel : rank id < fuel) : (climb up fuel (some id)).isSome := by
  induction fuel generalizing id with
  | zero => omega
  | succ fuel ih =>
    obtain ⟨next, hnext⟩ := Option.isSome_iff_exists.mp hid
    rw [climb_succ hnext, Option.isSome_map]
    match next with
    | none => cases fuel <;> rfl
    | some p =>
      obtain ⟨hlt, hp⟩ := hup id p hnext
      exact ih hp (by omega)

/-- The walk visits exactly the nodes whose subtree holds the start. -/
theorem mem_climb {fuel id : Nat} {l : List Nat}
    (h : climb up fuel (some id) = some l) (i : Nat) : i ∈ l ↔ Below up i id := by
  induction fuel generalizing id l with
  | zero => simp [climb] at h
  | succ fuel ih =>
    obtain ⟨fuel', next, rest, hf, hid, hrest, rfl⟩ := climb_eq_some h
    obtain rfl : fuel = fuel' := by omega
    rw [List.mem_cons]
    match next, hid, hrest with
    | none, hid, hrest =>
      obtain rfl : rest = [] := by cases fuel <;> simpa [climb] using hrest.symm
      constructor
      · rintro (rfl | h)
        · exact .refl
        · simp at h
      · intro hb
        rcases Relation.ReflTransGen.cases_head hb with rfl | ⟨p, hp, _⟩
        · exact Or.inl rfl
        · simp [IsParent, hid] at hp
    | some p, hid, hrest =>
      rw [ih hrest]
      constructor
      · rintro (rfl | hb)
        · exact .refl
        · exact .head hid hb
      · intro hb
        rcases Relation.ReflTransGen.cases_head hb with rfl | ⟨q, hq, hb⟩
        · exact Or.inl rfl
        · obtain rfl : p = q := by simpa [IsParent, hid] using hq
          exact Or.inr hb

/-- The last node of a walk is a root. -/
theorem climb_getLast {fuel id : Nat} {l : List Nat}
    (h : climb up fuel (some id) = some l) :
    ∃ r, l.getLast? = some r ∧ up r = some none := by
  induction fuel generalizing id l with
  | zero => simp [climb] at h
  | succ fuel ih =>
    obtain ⟨fuel', next, rest, hf, hid, hrest, rfl⟩ := climb_eq_some h
    obtain rfl : fuel = fuel' := by omega
    match next, hid, hrest with
    | none, hid, hrest =>
      obtain rfl : rest = [] := by cases fuel <;> simpa [climb] using hrest.symm
      exact ⟨id, rfl, hid⟩
    | some p, hid, hrest =>
      obtain ⟨r, hr, hroot⟩ := ih hrest
      refine ⟨r, ?_, hroot⟩
      rw [List.getLast?_cons, hr]; rfl

end climb

/-! ### Subtrees -/

section below

variable {up : Links}

theorem Below.refl (i : Nat) : Below up i i := Relation.ReflTransGen.refl

theorem Below.trans {i j n : Nat} (hij : Below up i j) (hjn : Below up j n) :
    Below up i n :=
  Relation.ReflTransGen.trans hjn hij

/-- A node above `n` is `n` itself or above `n`'s parent. -/
theorem below_iff {i n : Nat} :
    Below up i n ↔ n = i ∨ ∃ p, IsParent up n p ∧ Below up i p :=
  Relation.ReflTransGen.cases_head_iff

/-- A node other than `i` is below `i` with its parent. -/
theorem below_parent_iff {i n p : Nat} (hp : IsParent up n p) (hne : n ≠ i) :
    Below up i n ↔ Below up i p := by
  rw [below_iff]
  constructor
  · rintro (heq | ⟨q, hq, hbelow⟩)
    · exact absurd heq hne
    · obtain rfl : p = q := Option.some.inj (Option.some.inj (hp.symm.trans hq))
      exact hbelow
  · exact fun hbelow => Or.inr ⟨p, hp, hbelow⟩

/-- A node without a parent is below itself only. -/
theorem not_below_of_top {i n : Nat} (h : ∀ p, ¬IsParent up n p) (hne : n ≠ i) :
    ¬Below up i n := by
  rw [below_iff]
  rintro (heq | ⟨p, hp, -⟩)
  · exact hne heq
  · exact h p hp

theorem Below.rank_le {rank : Nat → Nat} (hup : Ranked up rank) {i n : Nat}
    (h : Below up i n) : rank i ≤ rank n := by
  induction h using Relation.ReflTransGen.head_induction_on with
  | refl => exact Nat.le_refl _
  | head hp _ ih => exact Nat.le_trans ih (Nat.le_of_lt (hup _ _ hp).1)

theorem Below.le (hup : Ordered up) {i n : Nat} (h : Below up i n) : i ≤ n :=
  h.rank_le hup.ranked

/-- The walk of an ordered forest meets strictly smaller nodes. -/
theorem climb_sorted (hup : Ordered up) {fuel id : Nat} {l : List Nat}
    (h : climb up fuel (some id) = some l) : l.Pairwise (· > ·) := by
  induction fuel generalizing id l with
  | zero => simp [climb] at h
  | succ fuel ih =>
    obtain ⟨fuel', next, rest, hf, hid, hrest, rfl⟩ := climb_eq_some h
    obtain rfl : fuel = fuel' := by omega
    match next, hid, hrest with
    | none, hid, hrest =>
      obtain rfl : rest = [] := by cases fuel <;> simpa [climb] using hrest.symm
      simp
    | some p, hid, hrest =>
      refine List.pairwise_cons.mpr ⟨fun j hj => ?_, ih hrest⟩
      have hle : j ≤ p := ((mem_climb hrest j).mp hj).le hup
      have hlt : p < id := (hup id p hid).1
      omega

/-- Two nodes above the same node are above one another. -/
theorem Below.total {i j n : Nat} (hi : Below up i n) (hj : Below up j n) :
    Below up i j ∨ Below up j i := by
  have huniq : Relator.RightUnique (IsParent up) := by
    intro a b c hb hc
    have : some (some b) = some (some c) := hb.symm.trans hc
    simpa using this
  exact (Relation.ReflTransGen.total_of_right_unique huniq hi hj).symm

/-- Nodes with the same link, be they roots or siblings, have disjoint subtrees. -/
theorem sibling_unique {rank : Nat → Nat} (hup : Ranked up rank) {link : Option Nat}
    {c d n : Nat} (hc : up c = some link) (hd : up d = some link) (hcn : Below up c n)
    (hdn : Below up d n) : c = d := by
  -- One sibling above the other would put the other's parent below it.
  have key : ∀ {c d : Nat}, up c = some link → up d = some link → Below up c d → c = d := by
    intro c d hc hd hb
    rcases below_iff.mp hb with heq | ⟨p, hp, hb'⟩
    · exact heq.symm
    · obtain rfl : some p = link := Option.some.inj (hp.symm.trans hd)
      have hle := hb'.rank_le hup
      have hlt := (hup c p hc).1
      omega
  rcases Below.total hcn hdn with hb | hb
  · exact key hc hd hb
  · exact (key hd hc hb).symm

/-- A node strictly below `i` is below a child of `i`. -/
theorem Below.exists_child {i n : Nat} (h : Below up i n) (hne : n ≠ i) :
    ∃ c, IsParent up c i ∧ Below up c n := by
  rcases Relation.ReflTransGen.cases_tail h with heq | ⟨c, hc, hci⟩
  · exact absurd heq.symm hne
  · exact ⟨c, hci, hc⟩

/-- Every node above a known node is known. -/
theorem Below.known (hup : Ordered up) {i n : Nat} (h : Below up i n)
    (hn : (up n).isSome) : (up i).isSome := by
  induction h using Relation.ReflTransGen.head_induction_on with
  | refl => exact hn
  | head hp _ ih => exact ih (hup _ _ hp).2

/-- New nodes do not change which known nodes lie below a node. -/
theorem below_extend {up' : Links} (hup : Ordered up)
    (hext : ∀ i, (up i).isSome → up' i = up i) {i n : Nat} (hn : (up n).isSome) :
    Below up' i n ↔ Below up i n := by
  constructor
  · intro h
    induction h using Relation.ReflTransGen.head_induction_on with
    | refl => exact .refl i
    | head hp _ ih =>
      have hp' : IsParent up _ _ := (hext _ hn).symm.trans hp
      exact .head hp' (ih (hup _ _ hp').2)
  · intro h
    induction h using Relation.ReflTransGen.head_induction_on with
    | refl => exact .refl i
    | head hp _ ih => exact .head ((hext _ hn).trans hp) (ih (hup _ _ hp).2)

end below

/-! ### Totals over subtrees -/

section total

open Classical

variable {ι : Type*} {M : Type*}

/-- Sum of `weight` over the items placed in the subtree of `i`. -/
noncomputable def total [AddMonoid M] (up : Links) (place : ι → Nat) (weight : ι → M)
    (items : List ι) (i : Nat) : M :=
  ((items.filter fun x => Below up i (place x)).map weight).sum

/-- Sum of `weight` over the items placed at `i` itself. -/
def ownTotal [AddMonoid M] (place : ι → Nat) (weight : ι → M) (items : List ι)
    (i : Nat) : M :=
  ((items.filter fun x => place x = i).map weight).sum

variable {up : Links} {place : ι → Nat} {weight : ι → M}

section monoid

variable [AddMonoid M]

@[simp] theorem total_nil (i : Nat) : total up place weight [] i = 0 := rfl

theorem total_cons (x : ι) (items : List ι) (i : Nat) :
    total up place weight (x :: items) i =
      (if Below up i (place x) then weight x else 0) + total up place weight items i := by
  by_cases h : Below up i (place x) <;> simp [total, h]

theorem total_append (items items' : List ι) (i : Nat) :
    total up place weight (items ++ items') i =
      total up place weight items i + total up place weight items' i := by
  simp [total]

theorem total_snoc (items : List ι) (x : ι) (i : Nat) :
    total up place weight (items ++ [x]) i =
      total up place weight items i + (if Below up i (place x) then weight x else 0) := by
  rw [total_append, total_cons]; simp

@[simp] theorem ownTotal_nil (i : Nat) : ownTotal place weight [] i = 0 := rfl

theorem ownTotal_cons (x : ι) (items : List ι) (i : Nat) :
    ownTotal place weight (x :: items) i =
      (if place x = i then weight x else 0) + ownTotal place weight items i := by
  by_cases h : place x = i <;> simp [ownTotal, h]

theorem ownTotal_snoc (items : List ι) (x : ι) (i : Nat) :
    ownTotal place weight (items ++ [x]) i =
      ownTotal place weight items i + (if place x = i then weight x else 0) := by
  by_cases h : place x = i <;> simp [ownTotal, h]

/-- Nothing below a node: its total is zero. -/
theorem total_eq_zero {items : List ι} {i : Nat} (h : ∀ x ∈ items, ¬ Below up i (place x)) :
    total up place weight items i = 0 := by
  have hfilter : items.filter (fun x => decide (Below up i (place x))) = [] :=
    List.filter_eq_nil_iff.mpr fun x hx => by simpa using h x hx
  simp [total, hfilter]

theorem ownTotal_eq_zero {items : List ι} {i : Nat} (h : ∀ x ∈ items, place x ≠ i) :
    ownTotal place weight items i = 0 := by
  have hfilter : items.filter (fun x => decide (place x = i)) = [] :=
    List.filter_eq_nil_iff.mpr fun x hx => by simpa using h x hx
  simp [ownTotal, hfilter]

/-- The total depends only on which items lie in the subtree. -/
theorem total_congr {up' : Links} {items : List ι} {i : Nat}
    (h : ∀ x ∈ items, Below up i (place x) ↔ Below up' i (place x)) :
    total up place weight items i = total up' place weight items i := by
  have hfilter : items.filter (fun x => decide (Below up i (place x))) =
      items.filter fun x => decide (Below up' i (place x)) :=
    List.filter_congr fun x hx => decide_eq_decide.mpr (h x hx)
  unfold total
  rw [hfilter]

end monoid

section commMonoid

variable [AddCommMonoid M]

/-- Taking an item out of the list takes its weight out of the totals that
    count it. -/
theorem total_erase [DecidableEq ι] {items : List ι} {x : ι} (hx : x ∈ items) (i : Nat) :
    total up place weight items i =
      (if Below up i (place x) then weight x else 0) +
        total up place weight (items.erase x) i := by
  have hperm : (items.filter fun y => decide (Below up i (place y))).Perm
      ((x :: items.erase x).filter fun y => decide (Below up i (place y))) :=
    (List.perm_cons_erase hx).filter _
  rw [← total_cons]
  exact (hperm.map weight).sum_eq

/-- A pointwise larger weight gives a larger total. -/
theorem total_le {weight weight' : ι → Nat} {items : List ι} {i : Nat}
    (h : ∀ x ∈ items, weight x ≤ weight' x) :
    total up place weight items i ≤ total up place weight' items i := by
  unfold total
  apply List.sum_le_sum
  intro x hx
  exact h x (List.mem_of_mem_filter hx)

/-- A subtree's total is what lies at its root plus its children's totals. -/
theorem total_eq_own_add_children (hup : Ordered up) (items : List ι) (i : Nat)
    {children : List Nat} (hnodup : children.Nodup)
    (hmem : ∀ c, c ∈ children ↔ IsParent up c i) :
    total up place weight items i =
      ownTotal place weight items i +
        (children.map fun c => total up place weight items c).sum := by
  induction items with
  | nil => simp
  | cons x items ih =>
    -- Of an item's weight, either the node itself or exactly one child takes it.
    have hone : (if Below up i (place x) then weight x else 0) =
        (if place x = i then weight x else 0) +
          (children.map fun c => if Below up c (place x) then weight x else 0).sum := by
      by_cases hown : place x = i
      · have hnone : ∀ c ∈ children, ¬ Below up c (place x) := by
          intro c hc hb
          have hlt := (hup c i ((hmem c).mp hc)).1
          have hle := hb.le hup
          omega
        rw [if_pos (hown ▸ Below.refl _), if_pos hown,
          List.map_congr_left fun c hc => if_neg (hnone c hc)]
        simp
      · by_cases hb : Below up i (place x)
        · obtain ⟨c, hci, hcx⟩ := hb.exists_child hown
          have hother : ∀ d ≠ c, d ∈ children →
              (if Below up d (place x) then weight x else 0) = 0 := by
            intro d hdc hd
            exact if_neg fun hdx => hdc (sibling_unique hup.ranked ((hmem d).mp hd) hci hdx hcx)
          rw [if_pos hb, if_neg hown, zero_add, List.sum_map_eq_nsmul_single c _ hother,
            List.count_eq_one_of_mem hnodup ((hmem c).mpr hci), one_nsmul, if_pos hcx]
        · have hnone : ∀ c ∈ children, ¬ Below up c (place x) := by
            intro c hc hcx
            have hic : Below up i c := .head ((hmem c).mp hc) .refl
            exact hb (hic.trans hcx)
          rw [if_neg hb, if_neg hown, List.map_congr_left fun c hc => if_neg (hnone c hc)]
          simp
    rw [total_cons, hone, ih, ownTotal_cons,
      List.map_congr_left fun c _ => total_cons x items c, List.sum_map_add]
    abel

/-- The own totals of nodes that hold all items add up to the weight of all. -/
theorem sum_ownTotal {items : List ι} {n : Nat} (h : ∀ x ∈ items, place x < n) :
    ((List.range n).map fun i => ownTotal place weight items i).sum =
      (items.map weight).sum := by
  induction items with
  | nil => simp
  | cons x items ih =>
    have hone : ((List.range n).map fun i => if place x = i then weight x else 0).sum =
        weight x := by
      have hother : ∀ i ≠ place x, i ∈ List.range n →
          (if place x = i then weight x else 0) = 0 := fun i hi _ => if_neg fun heq => hi heq.symm
      rw [List.sum_map_eq_nsmul_single (place x) _ hother, if_pos rfl,
        List.count_eq_one_of_mem List.nodup_range
          (List.mem_range.mpr (h x List.mem_cons_self)), one_nsmul]
    rw [List.map_congr_left fun i _ => ownTotal_cons x items i, List.sum_map_add, hone,
      ih fun y hy => h y (List.mem_cons_of_mem x hy), List.map_cons, List.sum_cons]

/-- A subtree that holds all items has the weight of all. -/
theorem total_all {items : List ι} {i : Nat} (h : ∀ x ∈ items, Below up i (place x)) :
    total up place weight items i = (items.map weight).sum := by
  have hfilter : items.filter (fun x => decide (Below up i (place x))) = items :=
    List.filter_eq_self.mpr fun x hx => decide_eq_true (h x hx)
  unfold total
  rw [hfilter]

end commMonoid

end total

end Forest
