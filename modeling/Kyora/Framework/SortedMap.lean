import Kyora.Framework.Objects
import Mathlib.Order.Basic
import Mathlib.Data.List.Pairwise

/-! # Maps in the order of their keys

  A map is the list of its entries, whose keys ascend. Which entries there are
  decides the list, so two maps that agree on every lookup are the same map, in
  whatever order they were filled.
-/

universe u v

/-- A map that lists its entries by ascending keys. -/
structure SortedMap (Key : Type u) (Value : Type v) [LinearOrder Key] where
  entries : List (Key × Value)
  sorted : entries.Pairwise fun x y => x.1 < y.1

namespace SortedMap

variable {Key : Type u} {Value : Type v} [LinearOrder Key]

/-! ### Operations -/

/-- The map without entries. -/
def empty : SortedMap Key Value := ⟨[], .nil⟩

/-- The value of a key. -/
def get? (m : SortedMap Key Value) (key : Key) : Option Value := m.entries.lookup key

def keys (m : SortedMap Key Value) : List Key := m.entries.map Prod.fst

def values (m : SortedMap Key Value) : List Value := m.entries.map Prod.snd

/-- The entries with one more, in the place of its key. -/
def insertEntry (key : Key) (v : Value) : List (Key × Value) → List (Key × Value)
  | [] => [(key, v)]
  | x :: xs =>
    if key < x.1 then (key, v) :: x :: xs
    else if key = x.1 then (key, v) :: xs
    else x :: insertEntry key v xs

theorem mem_insertEntry {key : Key} {v : Value} {xs : List (Key × Value)} {x : Key × Value}
    (h : x ∈ insertEntry key v xs) : x = (key, v) ∨ x ∈ xs := by
  induction xs with
  | nil => exact .inl (List.mem_singleton.mp h)
  | cons y ys ih =>
    unfold insertEntry at h
    split_ifs at h with hlt heq
    · exact List.mem_cons.mp h
    · exact (List.mem_cons.mp h).imp_right (List.mem_cons_of_mem y)
    · rcases List.mem_cons.mp h with rfl | h
      · exact .inr List.mem_cons_self
      · exact (ih h).imp_right (List.mem_cons_of_mem y)

theorem insertEntry_sorted (key : Key) (v : Value) {xs : List (Key × Value)}
    (h : xs.Pairwise fun x y => x.1 < y.1) :
    (insertEntry key v xs).Pairwise fun x y => x.1 < y.1 := by
  induction xs with
  | nil => exact List.pairwise_singleton _ _
  | cons y ys ih =>
    obtain ⟨hfirst, hrest⟩ := List.pairwise_cons.mp h
    unfold insertEntry
    split_ifs with hlt heq
    · refine List.pairwise_cons.mpr ⟨fun x hx => ?_, h⟩
      rcases List.mem_cons.mp hx with rfl | hx
      · exact hlt
      · exact hlt.trans (hfirst x hx)
    · exact List.pairwise_cons.mpr ⟨fun x hx => heq ▸ hfirst x hx, hrest⟩
    · refine List.pairwise_cons.mpr ⟨fun x hx => ?_, ih hrest⟩
      rcases mem_insertEntry hx with rfl | hx
      · exact lt_of_le_of_ne (not_lt.mp hlt) (Ne.symm heq)
      · exact hfirst x hx

/-- The map with a value for a key. -/
def insert (m : SortedMap Key Value) (key : Key) (v : Value) : SortedMap Key Value :=
  ⟨insertEntry key v m.entries, insertEntry_sorted key v m.sorted⟩

/-- The map with the value of a key changed, if it has one. -/
def modify (m : SortedMap Key Value) (key : Key) (f : Value → Value) : SortedMap Key Value where
  entries := m.entries.map fun x => (x.1, if x.1 = key then f x.2 else x.2)
  sorted := by
    rw [List.pairwise_map]
    exact m.sorted

/-- Removes the entry at a key that may be present. -/
def erase (m : SortedMap Key Value) (key : Key) : SortedMap Key Value where
  entries := m.entries.filter fun x => decide (x.1 ≠ key)
  sorted := m.sorted.filter _

/-! ### Lookups -/

@[simp] theorem get?_empty (key : Key) : (empty : SortedMap Key Value).get? key = none := rfl

theorem lookup_cons_ite (k' : Key) (w : Value) (xs : List (Key × Value)) (k : Key) :
    ((k', w) :: xs).lookup k = if k = k' then some w else xs.lookup k := by
  rw [List.lookup_cons]
  by_cases hk : k = k'
  · rw [if_pos hk, beq_iff_eq.mpr hk]
  · rw [if_neg hk, beq_false_of_ne hk]

theorem lookup_insertEntry (key : Key) (v : Value) (xs : List (Key × Value)) (k : Key) :
    (insertEntry key v xs).lookup k = if k = key then some v else xs.lookup k := by
  induction xs with
  | nil => exact lookup_cons_ite key v [] k
  | cons y ys ih =>
    obtain ⟨k', w⟩ := y
    unfold insertEntry
    by_cases hlt : key < k'
    · rw [if_pos hlt, lookup_cons_ite]
    · rw [if_neg hlt]
      by_cases heq : key = k'
      · -- The entry that is replaced had the same key.
        subst heq
        rw [if_pos rfl, lookup_cons_ite, lookup_cons_ite]
        by_cases hk : k = key
        · rw [if_pos hk, if_pos hk]
        · rw [if_neg hk, if_neg hk, if_neg hk]
      · rw [if_neg heq, lookup_cons_ite, lookup_cons_ite, ih]
        by_cases hk : k = key
        · have hne : k ≠ k' := fun h => heq (hk.symm.trans h)
          rw [if_neg hne, if_pos hk, if_pos hk]
        · rw [if_neg hk, if_neg hk]

@[simp] theorem get?_insert (m : SortedMap Key Value) (key : Key) (v : Value) (k : Key) :
    (m.insert key v).get? k = if k = key then some v else m.get? k :=
  lookup_insertEntry key v m.entries k

@[simp] theorem get?_modify (m : SortedMap Key Value) (key : Key) (f : Value → Value) (k : Key) :
    (m.modify key f).get? k = if k = key then (m.get? k).map f else m.get? k := by
  unfold get? modify
  rw [Objects.lookup_map_value fun k' w => if k' = key then f w else w]
  by_cases hk : k = key
  · rw [if_pos hk]
    congr 1
    funext w
    exact if_pos hk
  · rw [if_neg hk]
    simp [hk]

/-! ### A map is its lookups -/

theorem lookup_filter_ne (key k : Key) (xs : List (Key × Value)) :
    (xs.filter fun x => decide (x.1 ≠ key)).lookup k = if k = key then none else xs.lookup k := by
  induction xs with
  | nil => exact (ite_self none).symm
  | cons x xs ih =>
    obtain ⟨k', w⟩ := x
    rw [List.filter_cons, lookup_cons_ite]
    by_cases hkey : k' = key
    · -- The entry that goes answered for its own key alone.
      rw [if_neg (by simp [hkey]), ih, hkey]
      by_cases hk : k = key
      · rw [if_pos hk, if_pos hk]
      · rw [if_neg hk, if_neg hk, if_neg hk]
    · rw [if_pos (decide_eq_true hkey), lookup_cons_ite, ih]
      by_cases hk : k = k'
      · rw [if_pos hk, if_pos hk, if_neg (by rw [hk]; exact hkey)]
      · rw [if_neg hk, if_neg hk]

@[simp] theorem get?_erase (m : SortedMap Key Value) (key k : Key) :
    (m.erase key).get? k = if k = key then none else m.get? k :=
  lookup_filter_ne key k m.entries

theorem keys_nodup (m : SortedMap Key Value) : (m.entries.map Prod.fst).Nodup := by
  rw [List.nodup_iff_pairwise_ne, List.pairwise_map]
  exact m.sorted.imp fun hlt => ne_of_lt hlt

theorem get?_eq_some_iff {m : SortedMap Key Value} {key : Key} {v : Value} :
    m.get? key = some v ↔ (key, v) ∈ m.entries :=
  Objects.lookup_eq_some_iff m.keys_nodup

theorem ext_get? {m m' : SortedMap Key Value} (h : ∀ key, m.get? key = m'.get? key) : m = m' := by
  have hperm : m.entries.Perm m'.entries := by
    apply (List.perm_ext_iff_of_nodup m.keys_nodup.of_map m'.keys_nodup.of_map).mpr
    intro x
    rw [← get?_eq_some_iff, ← get?_eq_some_iff, h]
  have hentries : m.entries = m'.entries := by
    apply List.Perm.eq_of_pairwise _ m.sorted m'.sorted hperm
    intro x y _ _ hxy hyx
    exact absurd hxy (lt_asymm hyx)
  cases m
  cases m'
  cases hentries
  rfl

/-- Two changes of one value are one change. -/
theorem modify_modify (m : SortedMap Key Value) (key : Key) (f g : Value → Value) :
    (m.modify key f).modify key g = m.modify key (g ∘ f) := by
  apply ext_get?
  intro k
  rw [get?_modify, get?_modify, get?_modify]
  by_cases hk : k = key
  · rw [if_pos hk, if_pos hk, if_pos hk, Option.map_map]
  · rw [if_neg hk, if_neg hk, if_neg hk]

/-- A change right after an insertion at the same key. -/
theorem modify_insert (m : SortedMap Key Value) (key : Key) (v : Value) (f : Value → Value) :
    (m.insert key v).modify key f = m.insert key (f v) := by
  apply ext_get?
  intro k
  rw [get?_modify, get?_insert, get?_insert]
  by_cases hk : k = key
  · simp only [if_pos hk, Option.map_some]
  · simp only [if_neg hk]

/-- A key above all others comes last. -/
theorem entries_insert_last {m : SortedMap Key Value} {key : Key} (v : Value)
    (h : ∀ k ∈ m.keys, k < key) : (m.insert key v).entries = m.entries ++ [(key, v)] := by
  show insertEntry key v m.entries = _
  have hlast : ∀ x ∈ m.entries, x.1 < key := fun x hx => h x.1 (List.mem_map_of_mem hx)
  generalize m.entries = xs at hlast
  induction xs with
  | nil => rfl
  | cons x xs ih =>
    have hx := hlast x List.mem_cons_self
    unfold insertEntry
    rw [if_neg (lt_asymm hx), if_neg (ne_of_gt hx),
      ih fun y hy => hlast y (List.mem_cons_of_mem x hy)]
    rfl

theorem values_insert_last {m : SortedMap Key Value} {key : Key} (v : Value)
    (h : ∀ k ∈ m.keys, k < key) : (m.insert key v).values = m.values ++ [v] := by
  unfold values
  rw [entries_insert_last v h, List.map_append]
  rfl

theorem mem_keys_iff {m : SortedMap Key Value} {key : Key} :
    key ∈ m.keys ↔ ∃ v, m.get? key = some v := by
  unfold keys
  rw [List.mem_map]
  constructor
  · intro h
    obtain ⟨x, hx, rfl⟩ := h
    exact ⟨x.2, get?_eq_some_iff.mpr hx⟩
  · intro h
    obtain ⟨v, hv⟩ := h
    exact ⟨(key, v), get?_eq_some_iff.mp hv, rfl⟩

theorem mem_values_iff {m : SortedMap Key Value} {v : Value} :
    v ∈ m.values ↔ ∃ key, m.get? key = some v := by
  unfold values
  rw [List.mem_map]
  constructor
  · intro h
    obtain ⟨x, hx, rfl⟩ := h
    exact ⟨x.1, get?_eq_some_iff.mpr hx⟩
  · intro h
    obtain ⟨key, hkey⟩ := h
    exact ⟨(key, v), get?_eq_some_iff.mp hkey, rfl⟩

/-- The values come in the order of the keys. -/
theorem values_eq (m : SortedMap Key Value) : m.values = m.keys.filterMap m.get? := by
  unfold values keys
  rw [List.filterMap_map, ← List.filterMap_eq_map]
  apply List.filterMap_congr
  intro x hx
  exact (get?_eq_some_iff.mpr hx).symm

/-! ### Maps of lists -/

/-- An entry with a key that is not there is added. -/
theorem entries_insert_fresh {m : SortedMap Key Value} {key : Key} (v : Value)
    (h : key ∉ m.keys) : (m.insert key v).entries.Perm ((key, v) :: m.entries) := by
  show (insertEntry key v m.entries).Perm ((key, v) :: m.entries)
  have hother : ∀ x ∈ m.entries, key ≠ x.1 := fun x hx heq =>
    h (List.mem_map.mpr ⟨x, hx, heq.symm⟩)
  generalize m.entries = xs at hother
  induction xs with
  | nil => exact List.Perm.refl _
  | cons x xs ih =>
    unfold insertEntry
    by_cases hlt : key < x.1
    · rw [if_pos hlt]
    · rw [if_neg hlt, if_neg (hother x List.mem_cons_self)]
      have hrest := ih fun y hy => hother y (List.mem_cons_of_mem x hy)
      exact (hrest.cons x).trans (List.Perm.swap (key, v) x xs)

/-- The map of a list of entries; a later one replaces an earlier one. -/
def ofList (xs : List (Key × Value)) : SortedMap Key Value :=
  xs.foldl (fun m x => m.insert x.1 x.2) empty

theorem entries_foldl_insert {m : SortedMap Key Value} {xs : List (Key × Value)}
    (h : (m.keys ++ xs.map Prod.fst).Nodup) :
    (xs.foldl (fun m x => m.insert x.1 x.2) m).entries.Perm (m.entries ++ xs) := by
  induction xs generalizing m with
  | nil => rw [List.append_nil, List.foldl_nil]
  | cons x xs ih =>
    rw [List.map_cons] at h
    have hperm := h.perm List.perm_middle
    obtain ⟨hfresh, -⟩ := List.nodup_cons.mp hperm
    have hadd := entries_insert_fresh x.2 fun hx => hfresh (List.mem_append_left _ hx)
    have hkeys : ((m.insert x.1 x.2).keys ++ xs.map Prod.fst).Perm
        (x.1 :: (m.keys ++ xs.map Prod.fst)) := (hadd.map Prod.fst).append_right _
    have hrest := ih (hperm.perm hkeys.symm)
    rw [List.foldl_cons]
    exact (hrest.trans (hadd.append_right xs)).trans List.perm_middle.symm

/-- The map keeps every entry of a list exactly if no key is there twice. -/
theorem entries_ofList_perm_iff {xs : List (Key × Value)} :
    (ofList xs).entries.Perm xs ↔ (xs.map Prod.fst).Nodup := by
  constructor
  · intro h
    exact (ofList xs).keys_nodup.perm (h.map Prod.fst)
  · intro h
    exact entries_foldl_insert (m := empty) h

theorem get?_ofList_iff {xs : List (Key × Value)} (h : (xs.map Prod.fst).Nodup) {key : Key}
    {v : Value} : (ofList xs).get? key = some v ↔ (key, v) ∈ xs := by
  rw [get?_eq_some_iff]
  exact (entries_ofList_perm_iff.mpr h).mem_iff

/-- A list in the order of its keys is the map. -/
theorem entries_ofList_sorted {xs : List (Key × Value)} (h : xs.Pairwise fun x y => x.1 < y.1) :
    (ofList xs).entries = xs := by
  have hnodup : (xs.map Prod.fst).Nodup := keys_nodup ⟨xs, h⟩
  apply List.Perm.eq_of_pairwise _ (ofList xs).sorted h (entries_ofList_perm_iff.mpr hnodup)
  intro x y _ _ hxy hyx
  exact absurd hxy (lt_asymm hyx)

theorem keys_sorted (m : SortedMap Key Value) : m.keys.Pairwise (· < ·) := by
  unfold keys
  rw [List.pairwise_map]
  exact m.sorted

end SortedMap
