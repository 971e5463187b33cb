import Mathlib.Data.List.Infix

/-! # Words in front of a doubled separator

  A word is `Separated` when it has no doubled separator inside it and no
  separator at its end. Whatever follows such a word and a doubled separator,
  the word is read back (`Separated.unique`), so two different words never
  share a prefix of this form (`Separated.prefix_unique`). A word may start
  with a separator.
-/

variable {α : Type*} {sep : α} {word other rest rest' : List α}

/-- No doubled separator inside, no separator at the end. -/
structure Separated (sep : α) (word : List α) : Prop where
  inside : ¬ [sep, sep] <:+: word
  last : word.getLast? ≠ some sep

namespace Separated

/-- What a longer word has beyond a shorter one would begin with separators. -/
theorem extension_nil {extra : List α} (h : Separated sep (word ++ extra))
    (heq : sep :: sep :: rest = extra ++ sep :: sep :: rest') : extra = [] := by
  match extra with
  | [] => rfl
  | [a] =>
    obtain rfl : sep = a := (List.cons.inj heq).1
    exact absurd List.getLast?_concat h.last
  | a :: b :: tail =>
    obtain ⟨rfl, htail⟩ := List.cons.inj heq
    obtain ⟨rfl, -⟩ := List.cons.inj htail
    exact absurd ⟨word, tail, by simp⟩ h.inside

theorem unique (hword : Separated sep word) (hother : Separated sep other)
    (heq : word ++ sep :: sep :: rest = other ++ sep :: sep :: rest') :
    word = other ∧ rest = rest' := by
  have hsame : word = other := by
    rcases List.append_eq_append_iff.mp heq with ⟨extra, rfl, hrest⟩ | ⟨extra, rfl, hrest⟩
    · rw [hother.extension_nil hrest, List.append_nil]
    · rw [hword.extension_nil hrest, List.append_nil]
  subst hsame
  simpa using heq

theorem prefix_unique (hword : Separated sep word) (hother : Separated sep other)
    (h : other ++ [sep, sep] <+: word ++ sep :: sep :: rest) : other = word := by
  obtain ⟨tail, htail⟩ := h
  have heq : other ++ sep :: sep :: tail = word ++ sep :: sep :: rest := by
    simpa using htail
  exact (hother.unique hword heq).1

end Separated
