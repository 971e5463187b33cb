import Kyora.Text
import Mathlib.Order.Bounds.Basic

/-! # What cutting leaves

  The marker is longer the more it stands for, so keeping fewer characters never
  makes room for more. The loop comes down from `cap` and stops at the largest
  number of characters that fits next to its own marker.
-/

namespace Kyora

/-! ### The marker -/

/-- A larger number is not shorter. -/
theorem length_toString_mono {a b : Nat} (h : a ≤ b) :
    (toString a).toList.length ≤ (toString b).toList.length := by
  show a.repr.toList.length ≤ b.repr.toList.length
  rw [Nat.toList_repr, Nat.toList_repr]
  have hb := (Nat.length_toDigits_le_iff (b := 10) (by omega) Nat.length_toDigits_pos).mp
    (Nat.le_refl (Nat.toDigits 10 b).length)
  exact (Nat.length_toDigits_le_iff (by omega) Nat.length_toDigits_pos).mpr (by omega)

theorem omitted_eq (count : Nat) :
    omitted count = "[... ".toList ++ (toString count).toList ++
      " characters omitted ...]".toList := by
  rw [omitted, String.toList_append, String.toList_append]

theorem length_omitted_mono {a b : Nat} (h : a ≤ b) :
    (omitted a).length ≤ (omitted b).length := by
  have hmono := length_toString_mono h
  rw [omitted_eq, omitted_eq, List.length_append, List.length_append, List.length_append,
    List.length_append]
  omega

/-! ### The loop -/

section loop

variable {text : List Char} {cap kept k : Nat}

/-- That many characters fit next to their marker. -/
def Fits (text : List Char) (cap k : Nat) : Prop := k + (omitted (text.length - k)).length ≤ cap

/-- The first and the last of `k` characters around their marker. -/
def around (text : List Char) (k : Nat) : List Char :=
  text.take ((k + 1) / 2) ++ omitted (text.length - k) ++ text.drop (text.length - k / 2)

/-- The rounds of the loop, as many as it takes. -/
inductive Cuts (text : List Char) (cap : Nat) : Nat → List Char → Prop where
  /-- Not even the marker fits. -/
  | head {kept : Nat} (hlong : cap < (omitted (text.length - kept)).length) :
    Cuts text cap kept (text.take cap)
  | done {kept : Nat} (hshort : (omitted (text.length - kept)).length ≤ cap)
    (hnext : kept ≤ cap - (omitted (text.length - kept)).length) :
    Cuts text cap kept (around text kept)
  | again {kept : Nat} {result : List Char}
    (hshort : (omitted (text.length - kept)).length ≤ cap)
    (hnext : cap - (omitted (text.length - kept)).length < kept)
    (rest : Cuts text cap (cap - (omitted (text.length - kept)).length) result) :
    Cuts text cap kept result

/-- The loop ends: each round keeps fewer characters. -/
theorem cuts_truncateLoop {fuel : Nat} (hfuel : kept < fuel) :
    Cuts text cap kept (truncateLoop text cap fuel kept) := by
  induction fuel generalizing kept with
  | zero => omega
  | succ fuel ih =>
    by_cases hlong : (omitted (text.length - kept)).length > cap
    · rw [truncateLoop, if_pos hlong]
      exact .head hlong
    · by_cases hnext : cap - (omitted (text.length - kept)).length ≥ kept
      · rw [truncateLoop, if_neg hlong, if_pos hnext]
        exact .done (by omega) hnext
      · rw [truncateLoop, if_neg hlong, if_neg hnext]
        exact .again (by omega) (by omega) (ih (by omega))

/-- Where fewer characters fit, the marker for more omitted ones fits too. -/
theorem Fits.marker_le (h : Fits text cap k) (hk : k ≤ kept) :
    k + (omitted (text.length - kept)).length ≤ cap := by
  have hmono := length_omitted_mono (show text.length - kept ≤ text.length - k by omega)
  have hfits : k + (omitted (text.length - k)).length ≤ cap := h
  omega

/-- The loop finds the largest number that fits below where it starts, or keeps
    the head when there is none. -/
theorem Cuts.spec {result : List Char} (h : Cuts text cap kept result)
    (hbound : ∀ k, Fits text cap k → k ≤ kept) :
    (∃ k, IsGreatest {k | Fits text cap k} k ∧ result = around text k) ∨
      (∀ k, ¬Fits text cap k) ∧ result = text.take cap := by
  induction h with
  | head hlong =>
    refine Or.inr ⟨?_, rfl⟩
    intro k hk
    have hmarker := hk.marker_le (hbound k hk)
    omega
  | @done kept hshort hnext =>
    have hfits : Fits text cap kept := by
      show kept + (omitted (text.length - kept)).length ≤ cap
      omega
    exact Or.inl ⟨kept, ⟨hfits, fun k hk => hbound k hk⟩, rfl⟩
  | again hshort hnext rest ih =>
    refine ih ?_
    intro k hk
    -- what fits still fits one round further down
    have hmarker := hk.marker_le (hbound k hk)
    omega

/-! ### The result -/

theorem length_around (hk : k ≤ text.length) :
    (around text k).length = k + (omitted (text.length - k)).length := by
  rw [around, List.length_append, List.length_append, List.length_take, List.length_drop]
  omega

theorem Fits.le_cap (h : Fits text cap k) : k ≤ cap := by
  have hfits : k + (omitted (text.length - k)).length ≤ cap := h
  omega

end loop

/-- Cutting terminates, changes exactly the texts that are too long, and keeps as
    many of their characters as fit next to a marker with their count. -/
theorem truncate_spec (text : String) (cap : Nat) :
    Cuts text.toList cap cap (truncateLoop text.toList cap (cap + 1) cap) ∧
    (truncate text cap = text ↔ text.length ≤ cap) ∧
    (truncate text cap).length ≤ cap ∧
    (cap < text.length →
      ((∃ k, Fits text.toList cap k) → ∃ k, IsGreatest {k | Fits text.toList cap k} k ∧
        (truncate text cap).toList = around text.toList k) ∧
      ((∀ k, ¬Fits text.toList cap k) → (truncate text cap).toList = text.toList.take cap)) := by
  have hcuts : Cuts text.toList cap cap (truncateLoop text.toList cap (cap + 1) cap) :=
    cuts_truncateLoop (Nat.lt_succ_self cap)
  have hspec := hcuts.spec fun k hk => hk.le_cap
  have hcount : text.toList.length = text.length := String.length_toList
  have hshort : text.length ≤ cap → truncate text cap = text := fun h => if_pos h
  have hlong : cap < text.length →
      (truncate text cap).toList = truncateLoop text.toList cap (cap + 1) cap := by
    intro h
    rw [truncate, if_neg (by omega), String.toList_ofList]
  have hlength : (truncate text cap).length ≤ cap := by
    by_cases hle : text.length ≤ cap
    · rw [hshort hle]
      exact hle
    · have htoList := congrArg List.length (hlong (by omega))
      rw [String.length_toList] at htoList
      rcases hspec with ⟨k, hk, hresult⟩ | ⟨-, hresult⟩
      · have hkcap := hk.1.le_cap
        have hfits : k + (omitted (text.toList.length - k)).length ≤ cap := hk.1
        rw [hresult, length_around (by omega)] at htoList
        omega
      · rw [hresult, List.length_take] at htoList
        omega
  refine ⟨hcuts, ⟨?_, hshort⟩, hlength, ?_⟩
  · intro hsame
    rw [hsame] at hlength
    exact hlength
  · intro hcap
    rw [hlong hcap]
    refine ⟨?_, ?_⟩
    · rintro ⟨k, hk⟩
      rcases hspec with hgreatest | ⟨hnone, -⟩
      · exact hgreatest
      · exact absurd hk (hnone k)
    · intro hnone
      rcases hspec with ⟨k, hk, -⟩ | ⟨-, hresult⟩
      · exact absurd hk.1 (hnone k)
      · exact hresult

end Kyora
