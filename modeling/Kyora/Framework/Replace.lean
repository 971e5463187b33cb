import Mathlib.Data.List.Infix

/-! # Replacement

  Replacing the matches of a word in a text, from left to right: a match is passed
  over as a whole, and the search goes on behind it.

  * `Replaces`: what a replacement leaves, for texts over any alphabet.
  * `Replaces.erases`: when the word cannot come back in the result.
  * `replaces_replace`: the replacement of strings is one.
-/

namespace Words

section

variable {α : Type} {word other t u v w : List α} {l r : α}

/-- The second text is the first with the matches of `word` replaced by `other`. -/
inductive Replaces (word other : List α) : List α → List α → Prop where
  | nil : Replaces word other [] []
  | matched (t u : List α) (h : Replaces word other t u) :
      Replaces word other (word ++ t) (other ++ u)
  | passed (a : α) (t u : List α) (hno : ¬ word <+: a :: t) (h : Replaces word other t u) :
      Replaces word other (a :: t) (a :: u)

/-! ### Infixes around a letter -/

theorem prefix_of_separated (hr : r ∉ w) (h : w <+: t ++ r :: u) : w <+: t := by
  have hr' : t ++ [r] <+: t ++ r :: u := (List.prefix_append_right_inj t).mpr ⟨u, rfl⟩
  rcases List.prefix_or_prefix_of_prefix h hr' with hw | hw
  · rcases List.prefix_concat_iff.mp hw with rfl | hw
    · exact absurd (by simp) hr
    · exact hw
  · exact absurd (hw.subset (by simp)) hr

/-- A word without the letter is on one side of it. -/
theorem infix_of_separated (hr : r ∉ w) (h : w <:+: t ++ r :: u) : w <:+: t ∨ w <:+: u := by
  induction t with
  | nil =>
    rcases List.infix_cons_iff.mp h with h | h
    · exact .inl (prefix_of_separated (t := []) hr h).isInfix
    · exact .inr h
  | cons a t ih =>
    rw [List.cons_append] at h
    rcases List.infix_cons_iff.mp h with h | h
    · exact .inl (prefix_of_separated (t := a :: t) hr h).isInfix
    · exact (ih h).imp_left List.infix_cons

/-! ### Replacements -/

/-- Letters that are not searched for are passed. -/
theorem Replaces.passes (hno : ∀ v w, u = v ++ w → w ≠ [] → ¬ word <+: w ++ t)
    (h : Replaces word other t v) : Replaces word other (u ++ t) (u ++ v) := by
  induction u with
  | nil => exact h
  | cons a u ih =>
    refine .passed a _ _ (hno [] (a :: u) rfl (List.cons_ne_nil _ _)) (ih fun w x hu hx => ?_)
    exact hno (a :: w) x (by rw [hu, List.cons_append]) hx

/-- A text without the word stays as it is. -/
theorem Replaces.unchanged (h : Replaces word other t u) (hno : ¬ word <:+: t) : u = t := by
  induction h with
  | nil => rfl
  | matched t u h ih => exact absurd (List.prefix_append _ _).isInfix hno
  | passed a t u hfirst h ih => rw [ih fun hin => hno (List.infix_cons hin)]

/-- A start of the result without the first letter of the replacement is one of the text. -/
theorem Replaces.prefix_of_prefix (h : Replaces word (l :: other) t u) (hl : l ∉ w)
    (hw : w <+: u) : w <+: t := by
  induction h generalizing w with
  | nil => exact hw
  | matched t u h ih =>
    have hnil : w <+: [] := prefix_of_separated (t := []) hl hw
    exact (List.prefix_nil.mp hnil) ▸ List.nil_prefix
  | passed a t u hno h ih =>
    cases w with
    | nil => exact List.nil_prefix
    | cons b w =>
      obtain ⟨rfl, hrest⟩ := List.cons_prefix_cons.mp hw
      exact List.cons_prefix_cons.mpr ⟨rfl, ih (List.not_mem_of_not_mem_cons hl) hrest⟩

/-- Between two letters that the word does not have, a replacement without the word erases
    it: no match of the result reaches across the borders of a replaced one. -/
theorem Replaces.erases (h : Replaces word (l :: other ++ [r]) t u) (hword : word ≠ [])
    (hl : l ∉ word) (hr : r ∉ word) (hother : ¬ word <:+: other) : ¬ word <:+: u := by
  induction h with
  | nil => exact fun hin => hword (List.infix_nil.mp hin)
  | matched t u h ih =>
    intro hin
    rw [List.append_assoc, List.singleton_append] at hin
    rcases infix_of_separated hr hin with hin | hin
    · rcases infix_of_separated (t := []) hl hin with hin | hin
      · exact hword (List.infix_nil.mp hin)
      · exact hother hin
    · exact ih hin
  | passed a t u hno h ih =>
    intro hin
    rcases List.infix_cons_iff.mp hin with hin | hin
    · -- a match of the result that begins here is one of the text
      cases word with
      | nil => exact hword rfl
      | cons b word =>
        obtain ⟨rfl, hrest⟩ := List.cons_prefix_cons.mp hin
        have hprefix := h.prefix_of_prefix (List.not_mem_of_not_mem_cons hl) hrest
        exact hno (List.cons_prefix_cons.mpr ⟨rfl, hprefix⟩)
    · exact ih hin

end

/-! ### Strings -/

section

open String.Slice Pattern Model

variable {word other t u : String} {s : String.Slice}

/-- What a step of a search adds to the result. -/
def added (s : String.Slice) (other : String) (sofar : String) : SearchStep s → String
  | .matched .. => sofar ++ other.toSlice
  | .rejected start stop => sofar ++ s.slice! start stop

/-- No match begins in what a search rejects. -/
theorem not_prefix_of_rejected {start stop : s.Pos} {x y : List Char}
    (hno : ∀ pos, start ≤ pos → pos < stop → ¬ MatchesAt word.toSlice pos)
    (hstart : start.Splits t (String.ofList (x ++ y) ++ u))
    (hstop : stop.Splits (t ++ String.ofList (x ++ y)) u) (hy : y ≠ []) :
    ¬ word.toList <+: y ++ u.toList := by
  rintro ⟨rest, hrest⟩
  have hall : s.copy = (t ++ String.ofList x) ++ (String.ofList y ++ u) := by
    rw [hstart.eq_append, String.ofList_append, String.append_assoc, String.append_assoc]
  have hpos := String.Slice.Pos.splits_ofEqAppend hall
  have hge : start ≤ String.Slice.Pos.ofEqAppend hall := by
    refine (hstart.le_iff_exists_eq_append hpos).mpr ⟨String.ofList x, rfl, ?_⟩
    rw [String.ofList_append, String.append_assoc]
  have hlt : String.Slice.Pos.ofEqAppend hall < stop := by
    refine (hpos.lt_iff_exists_eq_append hstop).mpr ⟨String.ofList y, ?_, ?_, rfl⟩
    · simpa [← String.toList_inj] using hy
    · rw [String.ofList_append, String.append_assoc]
  refine hno _ hge hlt (ForwardSliceSearcher.matchesAt_iff_splits.mpr ?_)
  have hword : String.ofList y ++ u = word ++ String.ofList rest := by
    rw [← String.toList_inj, String.toList_append, String.toList_append, String.toList_ofList,
      String.toList_ofList, hrest]
  rw [String.copy_toSlice]
  exact ⟨_, _, hpos.of_eq rfl hword⟩

theorem replaces_steps {pos : s.Pos} {steps : List (SearchStep s)}
    (h : IsValidSearchFrom word.toSlice pos steps) (hsplit : pos.Splits t u) (sofar : String) :
    ∃ v, steps.foldl (added s other) sofar = sofar ++ v ∧
      Replaces word.toList other.toList u.toList v.toList := by
  induction h generalizing t u sofar with
  | endPos =>
    obtain ⟨-, rfl⟩ := splits_endPos_iff.mp hsplit
    exact ⟨"", by simp, by simpa using Replaces.nil⟩
  | matched hmatch hvalid ih =>
    obtain ⟨t', u', hstart, hend⟩ := ForwardSliceSearcher.isLongestMatchAt_iff_splits.mp hmatch
    obtain ⟨v, hfold, hreplaces⟩ := ih hend (sofar ++ other)
    obtain rfl := hsplit.eq_right hstart
    refine ⟨other ++ v, ?_, ?_⟩
    · rw [List.foldl_cons, ← String.append_assoc, ← hfold]
      simp [added]
    · rw [String.toList_append, String.toList_append, String.copy_toSlice]
      exact .matched _ _ hreplaces
  | @mismatched _ start stop hlt hno hvalid ih =>
    -- what the search rejects at once is passed letter by letter
    obtain ⟨w, -, ht, rfl⟩ := (hsplit.lt_iff_exists_eq_append stop.splits).mp hlt
    have hstop : stop.Splits (t ++ w) (s.sliceFrom stop).copy := ht ▸ stop.splits
    obtain ⟨v, hfold, hreplaces⟩ := ih hstop (sofar ++ w)
    refine ⟨w ++ v, ?_, ?_⟩
    · obtain ⟨hle, hcopy⟩ := String.Slice.copy_slice_eq_iff_splits.mpr ⟨t, _, hsplit, hstop⟩
      rw [List.foldl_cons, ← String.append_assoc, ← hfold]
      have hadded : added s other sofar (.rejected start stop) = sofar ++ w := by
        rw [added, ← String.Slice.slice_eq_slice! (h := hle), String.appendSlice_eq, hcopy]
      rw [hadded]
    · rw [String.toList_append, String.toList_append]
      refine hreplaces.passes fun x y hxy hy => ?_
      have hw : w = String.ofList (x ++ y) := by rw [← hxy, String.ofList_toList]
      subst hw
      exact not_prefix_of_rejected hno hsplit hstop hy

/-- The replacement of strings is a replacement. -/
theorem replaces_replace (text : String) (hword : word ≠ "") :
    Replaces word.toList other.toList text.toList (text.replace word other).toList := by
  have hlawful := ForwardStringSearcher.lawfulToForwardSearcherModel hword
  have hsearch := hlawful.isValidSearchFrom_toList text.toSlice
  rw [ForwardStringSearcher.isValidSearchFrom_iff_isValidSearchFrom_toSlice] at hsearch
  obtain ⟨v, hfold, hreplaces⟩ : ∃ v, List.foldl (added text.toSlice other) "" _ = "" ++ v ∧ _ :=
    replaces_steps hsearch (String.Slice.splits_startPos _) ""
  have hreplace : text.replace word other = v := by
    rw [← String.empty_append (s := v), ← hfold]
    unfold String.replace String.Slice.replace
    rw [← Std.Iter.foldl_toList]
    congr 1
    funext sofar step
    cases step <;> rfl
  rw [hreplace]
  simpa using hreplaces

end

end Words
