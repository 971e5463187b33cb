import Mathlib.Data.List.Sort
import Mathlib.Data.Option.Basic

/-! # Objects with named members

  An encoder lists the fields of a value, some of which it skips, and writes the
  others as members in the order of their keys. A decoder looks members up by
  key, so it sees what the fields say, whatever the order and the skips.
-/

namespace Objects

universe u v

variable {Key : Type u} {Value : Type v}

/-! ### Lookup in a list of members -/

section Lookup

variable [BEq Key] [LawfulBEq Key]

/-- The order of members with distinct keys does not matter. -/
theorem lookup_perm {xs ys : List (Key × Value)} (h : xs.Perm ys)
    (hkeys : (xs.map Prod.fst).Nodup) (key : Key) : xs.lookup key = ys.lookup key := by
  induction h with
  | nil => rfl
  | cons x hperm ih =>
    obtain ⟨k, v⟩ := x
    rw [List.map_cons, List.nodup_cons] at hkeys
    rw [List.lookup_cons, List.lookup_cons, ih hkeys.2]
  | swap x y rest =>
    obtain ⟨k, v⟩ := x
    obtain ⟨k', v'⟩ := y
    simp only [List.map_cons, List.nodup_cons, List.mem_cons, not_or] at hkeys
    simp only [List.lookup_cons]
    by_cases hk : key == k
    · by_cases hk' : key == k'
      · exact absurd ((eq_of_beq hk').symm.trans (eq_of_beq hk)) hkeys.1.1
      · simp [hk, hk']
    · simp [hk]
  | trans hxy hyz ihxy ihyz =>
    rw [ihxy hkeys]
    exact ihyz ((hxy.map Prod.fst).nodup_iff.mp hkeys)

/-- Changing each value by its key changes what a lookup returns. -/
theorem lookup_map_value (f : Key → Value → Value) (xs : List (Key × Value)) (key : Key) :
    (xs.map fun x => (x.1, f x.1 x.2)).lookup key = (xs.lookup key).map (f key) := by
  induction xs with
  | nil => rfl
  | cons x xs ih =>
    obtain ⟨k, v⟩ := x
    rw [List.map_cons, List.lookup_cons, List.lookup_cons, ih]
    by_cases hk : key == k
    · rw [eq_of_beq hk]
      simp
    · simp [hk]

/-- A key that is not listed is not found. -/
theorem lookup_eq_none_of_not_mem {xs : List (Key × Value)} {key : Key}
    (h : key ∉ xs.map Prod.fst) : xs.lookup key = none := by
  rw [List.lookup_eq_none_iff]
  intro x hx
  apply bne_iff_ne.mpr
  rintro rfl
  exact h (List.mem_map_of_mem hx)

/-- With distinct keys a lookup finds exactly the members. -/
theorem lookup_eq_some_iff {xs : List (Key × Value)} (hkeys : (xs.map Prod.fst).Nodup)
    {key : Key} {v : Value} : xs.lookup key = some v ↔ (key, v) ∈ xs := by
  induction xs with
  | nil => simp
  | cons x xs ih =>
    obtain ⟨k, w⟩ := x
    rw [List.map_cons, List.nodup_cons] at hkeys
    rw [List.lookup_cons, List.mem_cons]
    by_cases hk : key == k
    · obtain rfl := eq_of_beq hk
      -- The key is not listed again further on.
      have hrest : (key, v) ∉ xs := fun hmem => hkeys.1 (List.mem_map.mpr ⟨(key, v), hmem, rfl⟩)
      simp [hrest, eq_comm]
    · have hne : key ≠ k := fun heq => hk (by simp [heq])
      simp [hk, hne, ih hkeys.2]

omit [BEq Key] [LawfulBEq Key] in
/-- The members in the order of their keys, which are distinct. -/
theorem eq_of_perm_keys {xs ys : List (Key × Value)} (h : xs.Perm ys)
    (hkeys : xs.map Prod.fst = ys.map Prod.fst) (hnodup : (xs.map Prod.fst).Nodup) : xs = ys := by
  induction xs generalizing ys with
  | nil => exact h.nil_eq
  | cons x xs ih =>
    cases ys with
    | nil => exact h.eq_nil
    | cons y ys =>
      rw [List.map_cons, List.map_cons] at hkeys
      obtain ⟨hkey, hrest⟩ := List.cons.inj hkeys
      rw [List.map_cons, List.nodup_cons] at hnodup
      have hx : x ∈ y :: ys := h.subset List.mem_cons_self
      rcases List.mem_cons.mp hx with rfl | hx
      · rw [ih (h.cons_inv) hrest hnodup.2]
      · -- further on there is no such key
        have hmem : x.1 ∈ ys.map Prod.fst := List.mem_map_of_mem hx
        rw [← hrest] at hmem
        exact absurd hmem hnodup.1

end Lookup

/-! ### Fields -/

/-- The fields of a value in declaration order; `none` is a skipped one. -/
abbrev Fields (Key : Type u) (Value : Type v) : Type (max u v) := List (Key × Option Value)

namespace Fields

/-- The member of a field that is not skipped. -/
def member? (x : Key × Option Value) : Option (Key × Value) := x.2.map fun v => (x.1, v)

/-- The members that are written, in key order. -/
def members (le : Key → Key → Bool) (fields : Fields Key Value) : List (Key × Value) :=
  (fields.filterMap member?).mergeSort fun a b => le a.1 b.1

/-- What the fields say about a key. -/
def get [BEq Key] (fields : Fields Key Value) (key : Key) : Option Value :=
  (fields.lookup key).join

theorem keys_filterMap_sublist (fields : Fields Key Value) :
    ((fields.filterMap member?).map Prod.fst).Sublist (fields.map Prod.fst) := by
  induction fields with
  | nil => exact List.Sublist.slnil
  | cons x fields ih =>
    obtain ⟨k, v | v⟩ := x
    · exact ih.cons k
    · exact ih.cons_cons k

variable [BEq Key] [LawfulBEq Key]

theorem lookup_filterMap {fields : Fields Key Value} (hkeys : (fields.map Prod.fst).Nodup)
    (key : Key) : (fields.filterMap member?).lookup key = fields.get key := by
  induction fields with
  | nil => rfl
  | cons x fields ih =>
    obtain ⟨k, v⟩ := x
    rw [List.map_cons, List.nodup_cons] at hkeys
    have hrest := ih hkeys.2
    unfold get at hrest ⊢
    rw [List.lookup_cons]
    by_cases hk : key == k
    · -- a skipped field is absent: no later one has its key
      obtain rfl := eq_of_beq hk
      cases v with
      | none =>
        have habsent : fields.lookup key = none := lookup_eq_none_of_not_mem hkeys.1
        rw [habsent] at hrest
        simpa [member?] using hrest
      | some v => simp [member?]
    · cases v with
      | none =>
        have hskip : ((k, none) :: fields).filterMap member? = fields.filterMap member? := rfl
        simpa [hskip, hk] using hrest
      | some v => simpa [member?, List.lookup_cons, hk] using hrest

/-- A lookup in the members sees what the fields say. -/
theorem lookup_members (le : Key → Key → Bool) {fields : Fields Key Value}
    (hkeys : (fields.map Prod.fst).Nodup) (key : Key) :
    (fields.members le).lookup key = fields.get key := by
  have hperm := List.mergeSort_perm (fields.filterMap member?) fun a b => le a.1 b.1
  have hnodup := (keys_filterMap_sublist fields).nodup hkeys
  have hsorted := (hperm.map Prod.fst).nodup_iff.mpr hnodup
  rw [members, lookup_perm hperm hsorted, lookup_filterMap hkeys]

omit [LawfulBEq Key] in
@[simp] theorem get_nil (key : Key) : get ([] : Fields Key Value) key = none := rfl

omit [LawfulBEq Key] in
theorem get_cons (k : Key) (v : Option Value) (fields : Fields Key Value) (key : Key) :
    get ((k, v) :: fields) key = if key == k then v else get fields key := by
  unfold get
  rw [List.lookup_cons]
  by_cases hk : key == k
  · simp [hk]
  · simp [hk]

/-- Fields say nothing about a key that is not theirs. -/
theorem get_eq_none_of_not_mem {fields : Fields Key Value} {key : Key}
    (h : key ∉ fields.map Prod.fst) : get fields key = none := by
  rw [get, lookup_eq_none_of_not_mem h]
  rfl

/-- Changing each value by its key changes what the fields say. -/
theorem get_map_value (f : Key → Value → Value) (fields : Fields Key Value) (key : Key) :
    get (fields.map fun x => (x.1, x.2.map (f x.1))) key = (get fields key).map (f key) := by
  unfold get
  rw [lookup_map_value (fun k v => Option.map (f k) v)]
  cases fields.lookup key with
  | none => rfl
  | some v => rfl

end Fields

end Objects
