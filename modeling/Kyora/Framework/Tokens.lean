import Kyora.Framework.Forest
import Mathlib.Data.List.Infix

/-! # Cancellation tokens

  Tokens form a forest: a child token is cancelled with every token above it.
  Cancelling never stops anything by itself; whoever holds a token asks it. A
  token stays cancelled, and new tokens change nothing for those that exist.
-/

namespace Tokens

/-- All tokens made so far, each with its parent, and the ones cancelled
    directly. -/
structure Tree where
  parents : List (Option Nat)
  cancelled : List Nat
  /-- A token is made after its parent. -/
  ordered : ∀ k p : Nat, parents[k]? = some (some p) → p < k

namespace Tree

/-- The parent links of the tokens. -/
def links (t : Tree) : Forest.Links := fun k => t.parents[k]?

/-- One token without a parent. -/
def root : Tree where
  parents := [none]
  cancelled := []
  ordered := by
    intro k p hk
    rw [List.getElem?_singleton] at hk
    split at hk
    · cases hk
    · cases hk

/-- A new token, `child_token` of a known parent if there is one. -/
def add (t : Tree) (parent : Option Nat) (hparent : ∀ p ∈ parent, p < t.parents.length) :
    Tree where
  parents := t.parents ++ [parent]
  cancelled := t.cancelled
  ordered := by
    intro k p hk
    by_cases hlt : k < t.parents.length
    · rw [List.getElem?_append_left hlt] at hk
      exact t.ordered k p hk
    · have hlen : (t.parents ++ [parent]).length = t.parents.length + 1 := by simp
      have hle : k < t.parents.length + 1 := hlen ▸ (List.getElem?_eq_some_iff.mp hk).1
      obtain rfl : k = t.parents.length := by omega
      rw [List.getElem?_concat_length] at hk
      exact hparent p (Option.some.inj hk)

/-- `cancel`. -/
def cancel (t : Tree) (k : Nat) : Tree := { t with cancelled := k :: t.cancelled }

/-- `is_cancelled`: the token or one above it was cancelled. -/
def isCancelled (t : Tree) (k : Nat) : Bool :=
  match Forest.climb t.links t.parents.length (some k) with
  | some path => path.any (· ∈ t.cancelled)
  | none => false

/-! ### What cancels a token -/

theorem links_ordered (t : Tree) : Forest.Ordered t.links := by
  intro k p hk
  have hlt := t.ordered k p hk
  have hk' : k < t.parents.length := (List.getElem?_eq_some_iff.mp hk).1
  refine ⟨hlt, ?_⟩
  unfold links
  rw [List.getElem?_eq_getElem (Nat.lt_trans hlt hk')]
  rfl

theorem links_isSome {t : Tree} {k : Nat} : (t.links k).isSome ↔ k < t.parents.length := by
  simp [links]

/-- A known token is cancelled exactly with a token above it. -/
theorem isCancelled_iff {t : Tree} {k : Nat} (hk : k < t.parents.length) :
    t.isCancelled k = true ↔ ∃ i ∈ t.cancelled, Forest.Below t.links i k := by
  obtain ⟨path, hpath⟩ := Option.isSome_iff_exists.mp
    (Forest.climb_isSome t.links_ordered.ranked (links_isSome.mpr hk) hk)
  unfold isCancelled
  rw [hpath]
  simp only [List.any_eq_true, decide_eq_true_eq]
  constructor
  · rintro ⟨i, hi, hcancelled⟩
    exact ⟨i, hcancelled, (Forest.mem_climb hpath i).mp hi⟩
  · rintro ⟨i, hcancelled, hi⟩
    exact ⟨i, (Forest.mem_climb hpath i).mpr hi, hcancelled⟩

/-- What is below a cancelled token is cancelled. -/
theorem isCancelled_of_below {t : Tree} {i k : Nat} (hk : k < t.parents.length)
    (hbelow : Forest.Below t.links i k) (hi : t.isCancelled i = true) :
    t.isCancelled k = true := by
  have hknown : i < t.parents.length :=
    links_isSome.mp (hbelow.known t.links_ordered (links_isSome.mpr hk))
  obtain ⟨j, hj, hji⟩ := (isCancelled_iff hknown).mp hi
  exact (isCancelled_iff hk).mpr ⟨j, hj, hji.trans hbelow⟩

/-! ### Growth -/

/-- More tokens, and more of them cancelled. -/
structure Grows (t u : Tree) : Prop where
  parents : t.parents <+: u.parents
  cancelled : t.cancelled ⊆ u.cancelled

theorem Grows.refl (t : Tree) : Grows t t := ⟨List.prefix_refl _, fun _ h => h⟩

theorem Grows.trans {t u v : Tree} (htu : Grows t u) (huv : Grows u v) : Grows t v :=
  ⟨htu.parents.trans huv.parents, fun _ h => huv.cancelled (htu.cancelled h)⟩

theorem grows_add (t : Tree) (parent : Option Nat)
    (hparent : ∀ p ∈ parent, p < t.parents.length) : Grows t (t.add parent hparent) :=
  ⟨List.prefix_append _ _, fun _ h => h⟩

theorem grows_cancel (t : Tree) (k : Nat) : Grows t (t.cancel k) :=
  ⟨List.prefix_refl _, fun _ h => List.mem_cons_of_mem k h⟩

variable {t u : Tree}

theorem Grows.length_le (h : Grows t u) : t.parents.length ≤ u.parents.length :=
  h.parents.length_le

theorem Grows.links_eq (h : Grows t u) {k : Nat} (hk : k < t.parents.length) :
    u.links k = t.links k := by
  obtain ⟨rest, hrest⟩ := h.parents
  unfold links
  rw [← hrest, List.getElem?_append_left hk]

theorem Grows.below (h : Grows t u) {i k : Nat} (hk : k < t.parents.length)
    (hbelow : Forest.Below t.links i k) : Forest.Below u.links i k :=
  (Forest.below_extend t.links_ordered
    (fun _ hi => h.links_eq (links_isSome.mp hi)) (links_isSome.mpr hk)).mpr hbelow

/-- A cancelled token stays cancelled. -/
theorem Grows.isCancelled (h : Grows t u) {k : Nat} (hk : k < t.parents.length)
    (hcancelled : t.isCancelled k = true) : u.isCancelled k = true := by
  obtain ⟨i, hi, hbelow⟩ := (isCancelled_iff hk).mp hcancelled
  exact (isCancelled_iff (Nat.lt_of_lt_of_le hk h.length_le)).mpr
    ⟨i, h.cancelled hi, h.below hk hbelow⟩

/-- A new child token is below everything its parent is below. -/
theorem below_add {parent : Option Nat} (hparent : ∀ p ∈ parent, p < t.parents.length)
    {i p : Nat} (hp : parent = some p) (hbelow : Forest.Below t.links i p) :
    Forest.Below (t.add parent hparent).links i t.parents.length := by
  subst hp
  have hlink : Forest.IsParent (t.add (some p) hparent).links t.parents.length p := by
    unfold Forest.IsParent links add
    rw [List.getElem?_concat_length]
  have habove := (grows_add t (some p) hparent).below (hparent p rfl) hbelow
  exact Forest.below_iff.mpr (Or.inr ⟨p, hlink, habove⟩)

/-- A token that was cancelled is. -/
theorem isCancelled_cancel {k : Nat} (hk : k < t.parents.length) :
    (t.cancel k).isCancelled k = true :=
  (isCancelled_iff (t := t.cancel k) hk).mpr ⟨k, List.mem_cons_self, .refl k⟩

end Tree

end Tokens
