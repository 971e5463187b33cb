import Mathlib.Data.List.Forall2

/-! # Ranges of a list and their replacement

  Half-open ranges of positions. A list of ranges that neither overlap nor touch
  is determined by the positions it covers, so it is the list of the maximal
  runs of these positions. `replace` puts one mark in the place of each range and
  keeps every other element from a position on.
-/

/-- From the first position to the one before the second. -/
abbrev Range : Type := Nat × Nat

namespace Ranges

/-- A position in one of the ranges. -/
def Covered (ranges : List Range) (i : Nat) : Prop := ∃ r ∈ ranges, r.1 ≤ i ∧ i < r.2

/-- Ranges in order with a gap between each and the next. -/
structure Separated (ranges : List Range) : Prop where
  proper : ∀ r ∈ ranges, r.1 < r.2
  apart : ranges.Pairwise fun r r' => r.2 < r'.1

section covered

variable {ranges ranges' : List Range} {r : Range} {i : Nat}

@[simp] theorem covered_nil : ¬Covered [] i := by
  rintro ⟨r, hr, -⟩
  exact absurd hr List.not_mem_nil

theorem covered_cons : Covered (r :: ranges) i ↔ (r.1 ≤ i ∧ i < r.2) ∨ Covered ranges i := by
  constructor
  · rintro ⟨r', hr', hi⟩
    obtain rfl | hr' := List.mem_cons.mp hr'
    · exact Or.inl hi
    · exact Or.inr ⟨r', hr', hi⟩
  · rintro (hi | ⟨r', hr', hi⟩)
    · exact ⟨r, List.mem_cons_self, hi⟩
    · exact ⟨r', List.mem_cons_of_mem r hr', hi⟩

theorem covered_append :
    Covered (ranges ++ ranges') i ↔ Covered ranges i ∨ Covered ranges' i := by
  induction ranges with
  | nil => simp
  | cons r ranges ih => rw [List.cons_append, covered_cons, covered_cons, ih, or_assoc]

end covered

/-! ### Separated ranges -/

namespace Separated

variable {ranges : List Range} {r : Range}

theorem nil : Separated [] := ⟨fun _ h => absurd h List.not_mem_nil, List.Pairwise.nil⟩

theorem cons_iff : Separated (r :: ranges) ↔
    r.1 < r.2 ∧ (∀ r' ∈ ranges, r.2 < r'.1) ∧ Separated ranges := by
  constructor
  · intro h
    obtain ⟨hapart, hrest⟩ := List.pairwise_cons.mp h.apart
    exact ⟨h.proper r List.mem_cons_self, hapart,
      fun r' hr' => h.proper r' (List.mem_cons_of_mem r hr'), hrest⟩
  · rintro ⟨hproper, hapart, hrest⟩
    exact ⟨List.forall_mem_cons.mpr ⟨hproper, hrest.proper⟩,
      List.pairwise_cons.mpr ⟨hapart, hrest.apart⟩⟩

theorem append_iff {ranges' : List Range} : Separated (ranges ++ ranges') ↔
    Separated ranges ∧ Separated ranges' ∧ ∀ r ∈ ranges, ∀ r' ∈ ranges', r.2 < r'.1 := by
  constructor
  · intro h
    obtain ⟨hleft, hright, hcross⟩ := List.pairwise_append.mp h.apart
    exact ⟨⟨fun r hr => h.proper r (List.mem_append_left _ hr), hleft⟩,
      ⟨fun r hr => h.proper r (List.mem_append_right _ hr), hright⟩, hcross⟩
  · rintro ⟨hleft, hright, hcross⟩
    refine ⟨?_, List.pairwise_append.mpr ⟨hleft.apart, hright.apart, hcross⟩⟩
    intro r hr
    rcases List.mem_append.mp hr with hr | hr
    · exact hleft.proper r hr
    · exact hright.proper r hr

/-- The first range covers nothing of the others, and the other way round. -/
theorem covered_tail (h : Separated (r :: ranges)) (i : Nat) :
    Covered ranges i ↔ Covered (r :: ranges) i ∧ r.2 < i := by
  obtain ⟨-, hapart, -⟩ := cons_iff.mp h
  rw [covered_cons]
  constructor
  · rintro ⟨r', hr', hi⟩
    have := hapart r' hr'
    exact ⟨Or.inr ⟨r', hr', hi⟩, by omega⟩
  · rintro ⟨hi | hi, hlt⟩
    · omega
    · exact hi

/-- The first position that is covered. -/
theorem head_le (h : Separated (r :: ranges)) {i : Nat} (hi : Covered (r :: ranges) i) :
    r.1 ≤ i := by
  obtain ⟨hproper, hapart, -⟩ := cons_iff.mp h
  rcases covered_cons.mp hi with hi | ⟨r', hr', hi⟩
  · exact hi.1
  · have := hapart r' hr'
    omega

theorem head_covered (h : Separated (r :: ranges)) : Covered (r :: ranges) r.1 :=
  covered_cons.mpr (Or.inl ⟨Nat.le_refl _, (cons_iff.mp h).1⟩)

/-- The position after the first range is not covered. -/
theorem head_end (h : Separated (r :: ranges)) : ¬Covered (r :: ranges) r.2 := by
  obtain ⟨-, hapart, -⟩ := cons_iff.mp h
  intro hi
  rcases covered_cons.mp hi with hi | ⟨r', hr', hi⟩
  · omega
  · have := hapart r' hr'
    omega

/-- Separated ranges are determined by what they cover. -/
theorem ext {xs ys : List Range} (hx : Separated xs) (hy : Separated ys)
    (h : ∀ i, Covered xs i ↔ Covered ys i) : xs = ys := by
  induction xs generalizing ys with
  | nil =>
    cases ys with
    | nil => rfl
    | cons y ys => exact absurd ((h y.1).mpr hy.head_covered) covered_nil
  | cons x xs ih =>
    cases ys with
    | nil => exact absurd ((h x.1).mp hx.head_covered) covered_nil
    | cons y ys =>
      have hstart : x.1 = y.1 := by
        have hle := hy.head_le ((h x.1).mp hx.head_covered)
        have hge := hx.head_le ((h y.1).mpr hy.head_covered)
        omega
      -- each end is uncovered, so neither range ends inside the other
      have hends : ∀ {u v : Range} {us vs : List Range}, Separated (u :: us) →
          Separated (v :: vs) → u.1 = v.1 →
          (∀ i, Covered (u :: us) i ↔ Covered (v :: vs) i) → v.2 ≤ u.2 := by
        intro u v us vs hu hv hsame hcover
        by_contra hlt
        have hproper := (cons_iff.mp hu).1
        exact hu.head_end ((hcover u.2).mpr (covered_cons.mpr (Or.inl ⟨by omega, by omega⟩)))
      have hend : x.2 = y.2 := by
        have hle := hends hx hy hstart h
        have hge := hends hy hx hstart.symm fun i => (h i).symm
        omega
      have hrest : ∀ i, Covered xs i ↔ Covered ys i := by
        intro i
        rw [hx.covered_tail, hy.covered_tail, h, hend]
      rw [ih (cons_iff.mp hx).2.2 (cons_iff.mp hy).2.2 hrest, Prod.ext hstart hend]

end Separated

/-- The maximal runs of the positions that satisfy a predicate. -/
structure Maximal (covers : Nat → Prop) (ranges : List Range) : Prop where
  separated : Separated ranges
  covered : ∀ i, Covered ranges i ↔ covers i

theorem Maximal.unique {covers : Nat → Prop} {ranges ranges' : List Range}
    (h : Maximal covers ranges) (h' : Maximal covers ranges') : ranges = ranges' :=
  h.separated.ext h'.separated fun i => (h.covered i).trans (h'.covered i).symm

/-! ### Replacement -/

section replace

variable {α β : Type}

/-- The list from `start` on, with each range that ends after it replaced by
    the mark. -/
def replace (mark xs : List α) : Nat → List Range → List α
  | start, [] => xs.drop start
  | start, r :: ranges =>
    if r.2 ≤ start then replace mark xs start ranges
    else (xs.take r.1).drop start ++ mark ++ replace mark xs r.2 ranges

/-- Where the elements of a replacement come from; a mark comes from nowhere. -/
def sources (count : Nat) : Nat → List Range → List (Option Nat) :=
  replace [none] ((List.range count).map some)

/-- What a list says is said piece by piece. -/
theorem flatMap_slice {f : α → List β} {xs : List α} {ys : List β}
    (h : List.Forall₂ (fun x y => f x = [y]) xs ys) (a b : Nat) :
    ((xs.take b).drop a).flatMap f = (ys.take b).drop a := by
  have hwhole : ∀ {xs : List α} {ys : List β},
      List.Forall₂ (fun x y => f x = [y]) xs ys → xs.flatMap f = ys := by
    intro xs ys h
    induction h with
    | nil => rfl
    | cons hxy hrest ih => rw [List.flatMap_cons, hxy, ih, List.singleton_append]
  exact hwhole (List.forall₂_drop a (List.forall₂_take b h))

/-- A replacement of what a list says is what its replacement says. -/
theorem flatMap_replace {f : α → List β} {xs : List α} {ys : List β} {mark : List α}
    (h : List.Forall₂ (fun x y => f x = [y]) xs ys) (start : Nat) (ranges : List Range) :
    (replace mark xs start ranges).flatMap f = replace (mark.flatMap f) ys start ranges := by
  induction ranges generalizing start with
  | nil =>
    have hslice := flatMap_slice h start xs.length
    rw [List.take_length, h.length_eq, List.take_length] at hslice
    exact hslice
  | cons r ranges ih =>
    rw [replace, replace]
    by_cases hr : r.2 ≤ start
    · rw [if_pos hr, if_pos hr, ih]
    · rw [if_neg hr, if_neg hr, List.flatMap_append, List.flatMap_append, flatMap_slice h, ih]

/-- The element of a source, or the mark. -/
def sourced (mark xs : List α) : Option Nat → List α
  | none => mark
  | some i => (xs[i]?).toList

/-- A replacement is read off its sources. -/
theorem replace_eq_sources (mark xs : List α) (start : Nat) (ranges : List Range) :
    replace mark xs start ranges = (sources xs.length start ranges).flatMap (sourced mark xs) := by
  have hpositions : List.Forall₂ (fun o x => sourced mark xs o = [x])
      ((List.range xs.length).map some) xs := by
    rw [List.forall₂_iff_get]
    refine ⟨by simp, ?_⟩
    intro i hi hi'
    simp [sourced, hi']
  rw [sources, flatMap_replace hpositions]
  simp [sourced]

/-- A covered element is replaced by a mark. -/
theorem replace_covered (mark xs : List α) {ranges : List Range} {start i : Nat}
    (h : Covered ranges i) (hi : start ≤ i) :
    ∃ front back, replace mark xs start ranges = front ++ mark ++ back := by
  induction ranges with
  | nil => exact absurd h covered_nil
  | cons r ranges ih =>
    by_cases hr : r.2 ≤ start
    · rw [replace, if_pos hr]
      rcases covered_cons.mp h with hin | hin
      · omega
      · exact ih hin
    · rw [replace, if_neg hr]
      exact ⟨_, _, rfl⟩

/-- The elements that are copied are those from the start on that no range covers. -/
theorem mem_sources {ranges : List Range} (h : Separated ranges) (count start i : Nat) :
    some i ∈ sources count start ranges ↔ start ≤ i ∧ i < count ∧ ¬Covered ranges i := by
  have hslice : ∀ a b, some i ∈ (((List.range count).map some).take b).drop a ↔
      a ≤ i ∧ i < b ∧ i < count := by
    intro a b
    rw [← List.map_take, ← List.map_drop, List.mem_map]
    simp only [Option.some.injEq, exists_eq_right]
    rw [List.mem_iff_getElem]
    constructor
    · rintro ⟨k, hk, heq⟩
      simp only [List.length_drop, List.length_take, List.length_range] at hk
      simp only [List.getElem_drop, List.getElem_take, List.getElem_range] at heq
      omega
    · rintro ⟨hai, hib, hic⟩
      have hk : i - a < ((List.range count).take b |>.drop a).length := by
        simp only [List.length_drop, List.length_take, List.length_range]
        omega
      refine ⟨i - a, hk, ?_⟩
      simp only [List.getElem_drop, List.getElem_take, List.getElem_range]
      omega
  induction ranges generalizing start with
  | nil =>
    have hdrop := hslice start count
    rw [List.take_of_length_le (by simp)] at hdrop
    show some i ∈ ((List.range count).map some).drop start ↔ _
    rw [hdrop]
    simp
  | cons r ranges ih =>
    obtain ⟨hproper, hapart, hrest⟩ := Separated.cons_iff.mp h
    have hafter : Covered ranges i → r.2 < i := by
      rintro ⟨r', hr', hi⟩
      have := hapart r' hr'
      omega
    have hsources : sources count start (r :: ranges) =
        if r.2 ≤ start then sources count start ranges
        else (((List.range count).map some).take r.1).drop start ++ [none] ++
          sources count r.2 ranges := rfl
    rw [covered_cons, hsources]
    by_cases hr : r.2 ≤ start
    · rw [if_pos hr]
      refine (ih hrest start).trans ?_
      constructor
      · rintro ⟨hi, hcount, hno⟩
        exact ⟨hi, hcount, by rintro (hin | hin); omega; exact hno hin⟩
      · rintro ⟨hi, hcount, hno⟩
        exact ⟨hi, hcount, fun hin => hno (Or.inr hin)⟩
    · have hlater := ih hrest r.2
      rw [if_neg hr, List.mem_append, List.mem_append, hslice]
      refine (or_congr_right hlater).trans ?_
      constructor
      · rintro ((⟨hi, hlt, hcount⟩ | hmark) | ⟨hi, hcount, hno⟩)
        · refine ⟨hi, hcount, ?_⟩
          rintro (hin | hin)
          · omega
          · have := hafter hin
            omega
        · simp at hmark
        · refine ⟨by omega, hcount, ?_⟩
          rintro (hin | hin)
          · omega
          · exact hno hin
      · rintro ⟨hi, hcount, hno⟩
        by_cases hbefore : i < r.1
        · exact Or.inl (Or.inl ⟨hi, hbefore, hcount⟩)
        · refine Or.inr ⟨?_, hcount, fun hin => hno (Or.inr hin)⟩
          by_contra hlt
          exact hno (Or.inl (by omega))

end replace

end Ranges
