import Kyora.Secrets.Basic

/-! # Merging spans

  Spans arrive in the order of their ends. The emitted ones and the stack are
  always the maximal runs of what was pushed, and an emitted one is too far
  behind to be reached by a later span, so the emitted ones are final.
-/

namespace Kyora

open Ranges (Covered Separated covered_append covered_cons covered_nil replace)

/-! ### The stack -/

namespace Spans

/-- Absorbing keeps the order and covers what was covered. -/
theorem absorb_spec {start stop : Nat} {pending : List Range} (hproper : start < stop)
    (hseparated : Separated pending.reverse) (hends : ∀ r ∈ pending, r.2 ≤ stop) :
    Separated ((absorb start pending).2.reverse ++ [((absorb start pending).1, stop)]) ∧
      (∀ i, Covered ((absorb start pending).2.reverse ++ [((absorb start pending).1, stop)]) i ↔
        Covered pending.reverse i ∨ start ≤ i ∧ i < stop) ∧
      ((absorb start pending).1 = start ∨ ∃ r ∈ pending, (absorb start pending).1 = r.1) ∧
      (absorb start pending).2 <:+ pending := by
  induction pending generalizing start with
  | nil =>
    refine ⟨?_, ?_, Or.inl rfl, List.suffix_rfl⟩
    · exact Separated.cons_iff.mpr ⟨hproper, by simp, Separated.nil⟩
    · intro i
      simp [absorb, covered_cons]
  | cons r pending ih =>
    obtain ⟨earlier, last⟩ := r
    rw [List.reverse_cons] at hseparated
    obtain ⟨hrest, hone, hcross⟩ := Separated.append_iff.mp hseparated
    have hlast : last ≤ stop := hends _ List.mem_cons_self
    have hbelow : ∀ r ∈ pending, r.2 ≤ stop := fun r hr => hends r (List.mem_cons_of_mem _ hr)
    have hrange : earlier < last := hone.proper _ List.mem_cons_self
    by_cases htouch : start ≤ last
    · have habsorb : absorb start ((earlier, last) :: pending) =
          absorb (min start earlier) pending := if_pos htouch
      obtain ⟨hsep, hcover, hfrom, hsuffix⟩ :=
        @ih (min start earlier) (by omega) hrest hbelow
      rw [habsorb]
      refine ⟨hsep, ?_, ?_, hsuffix.trans (List.suffix_cons _ _)⟩
      · intro i
        rw [hcover, List.reverse_cons, covered_append, covered_cons]
        simp only [covered_nil, or_false]
        -- the absorbed range and the new one overlap or touch
        constructor
        · rintro (h | h)
          · exact Or.inl (Or.inl h)
          · by_cases hi : start ≤ i
            · exact Or.inr ⟨hi, h.2⟩
            · exact Or.inl (Or.inr ⟨by omega, by omega⟩)
        · rintro ((h | h) | h)
          · exact Or.inl h
          · exact Or.inr ⟨by omega, by omega⟩
          · exact Or.inr ⟨by omega, h.2⟩
      · rcases hfrom with hmin | ⟨r, hr, heq⟩
        · by_cases hle : start ≤ earlier
          · exact Or.inl (by omega)
          · exact Or.inr ⟨_, List.mem_cons_self, by omega⟩
        · exact Or.inr ⟨r, List.mem_cons_of_mem _ hr, heq⟩
    · have habsorb : absorb start ((earlier, last) :: pending) =
          (start, (earlier, last) :: pending) := if_neg htouch
      rw [habsorb]
      refine ⟨?_, ?_, Or.inl rfl, List.suffix_rfl⟩
      · refine Separated.append_iff.mpr ⟨List.reverse_cons ▸ hseparated, ?_, ?_⟩
        · exact Separated.cons_iff.mpr ⟨hproper, by simp, Separated.nil⟩
        · intro r hr r' hr'
          obtain rfl := List.mem_singleton.mp hr'
          rw [List.mem_reverse] at hr
          obtain rfl | hr := List.mem_cons.mp hr
          · show last < start
            omega
          · have := hcross r (List.mem_reverse.mpr hr) _ List.mem_cons_self
            show r.2 < start
            omega
      · intro i
        rw [covered_append, covered_cons]
        simp

/-! ### Emission -/

theorem slice_eq {text : List UInt8} {a b : Nat} (hab : a ≤ b)
    (ha : Utf8.isBoundary text a = true) (hb : Utf8.isBoundary text b = true) :
    slice text a b = some ((text.take b).drop a) := if_pos ⟨hab, ha, hb⟩

/-- A range that starts and ends on boundaries. -/
def Aligned (text : List UInt8) (r : Range) : Prop :=
  Utf8.isBoundary text r.1 = true ∧ Utf8.isBoundary text r.2 = true

/-- Emitting does not look at the stack. -/
theorem emit_pending (text : List UInt8) (s : Spans) (pending : List Range) (span : Range) :
    emit text { s with pending } span =
      (emit text s span).map fun s => { s with pending } := by
  unfold emit
  simp only
  split
  · rw [Option.map_map]
    rfl
  · rfl

theorem foldlM_emit_pending (text : List UInt8) (pending : List Range) (ranges : List Range)
    (s : Spans) : ranges.foldlM (emit text) { s with pending } =
      (ranges.foldlM (emit text) s).map fun s => { s with pending } := by
  induction ranges generalizing s with
  | nil => rfl
  | cons r ranges ih =>
    rw [List.foldlM_cons, List.foldlM_cons, emit_pending]
    cases emit text s r with
    | none => rfl
    | some s' => exact ih s'

/-- A range on boundaries is emitted. -/
theorem emit_aligned {text : List UInt8} {s : Spans} {r : Range} (hr : Aligned text r)
    (hs : Utf8.isBoundary text s.copied = true) :
    ∃ s', emit text s r = some s' ∧ Utf8.isBoundary text s'.copied = true ∧
      s'.pending = s.pending ∧
      ∀ ranges, s'.out ++ replace redacted text s'.copied ranges =
        s.out ++ replace redacted text s.copied (r :: ranges) := by
  unfold emit
  by_cases hcopied : s.copied < r.2
  · have hmax : Utf8.isBoundary text (max r.1 s.copied) = true := by
      rcases Nat.le_total r.1 s.copied with hle | hle
      · rw [Nat.max_eq_right hle]
        exact hs
      · rw [Nat.max_eq_left hle]
        exact hr.1
    have hcut : (text.take (max r.1 s.copied)).drop s.copied =
        (text.take r.1).drop s.copied := by
      rcases Nat.le_total r.1 s.copied with hle | hle
      · rw [Nat.max_eq_right hle, List.drop_eq_nil_of_le (by rw [List.length_take]; omega),
          List.drop_eq_nil_of_le (by rw [List.length_take]; omega)]
      · rw [Nat.max_eq_left hle]
    rw [if_pos hcopied, slice_eq (by omega) hs hmax, Option.map_some]
    refine ⟨_, rfl, hr.2, rfl, ?_⟩
    intro ranges
    show s.out ++ _ ++ redacted ++ _ = _
    rw [replace, if_neg (by omega), hcut]
    simp
  · rw [if_neg hcopied]
    refine ⟨s, rfl, hs, rfl, ?_⟩
    intro ranges
    rw [replace, if_pos (by omega)]

theorem foldlM_emit {text : List UInt8} {ranges : List Range} {s : Spans}
    (hranges : ∀ r ∈ ranges, Aligned text r) (hs : Utf8.isBoundary text s.copied = true) :
    ∃ s', ranges.foldlM (emit text) s = some s' ∧ Utf8.isBoundary text s'.copied = true ∧
      s'.pending = s.pending ∧
      ∀ later, s'.out ++ replace redacted text s'.copied later =
        s.out ++ replace redacted text s.copied (ranges ++ later) := by
  induction ranges generalizing s with
  | nil => exact ⟨s, rfl, hs, rfl, fun later => rfl⟩
  | cons r ranges ih =>
    obtain ⟨hr, hrest⟩ := List.forall_mem_cons.mp hranges
    obtain ⟨s₁, hemit, hs₁, hpending₁, hout₁⟩ := emit_aligned hr hs
    obtain ⟨s₂, hfold, hs₂, hpending₂, hout₂⟩ := ih hrest hs₁
    refine ⟨s₂, ?_, hs₂, hpending₂.trans hpending₁, ?_⟩
    · rw [List.foldlM_cons, hemit]
      exact hfold
    · intro later
      rw [hout₂, hout₁, List.cons_append]

/-! ### Pushing -/

/-- What was emitted and the stack are the maximal runs of what was pushed; an
    emitted span is out of the reach of the spans to come. -/
structure Merging (text : List UInt8) (reach start : Nat) (pushed emitted : List Range)
    (s : Spans) : Prop where
  maximal : Ranges.Maximal (Covered pushed) (emitted ++ s.pending.reverse)
  flushed : emitted.foldlM (emit text) (Spans.new start) = some { s with pending := [] }
  aligned : ∀ r ∈ emitted ++ s.pending.reverse, Aligned text r
  bounded : ∀ r ∈ s.pending, ∃ r' ∈ pushed, r.2 ≤ r'.2
  final : ∀ r ∈ emitted, ∃ r' ∈ pushed, r.2 + reach < r'.2

section merging

variable {text : List UInt8} {reach start : Nat} {pushed emitted : List Range} {s : Spans}

theorem Merging.init : Merging text reach start [] [] (Spans.new start) where
  maximal := ⟨Separated.nil, fun _ => Iff.rfl⟩
  flushed := rfl
  aligned := fun _ hr => absurd hr List.not_mem_nil
  bounded := fun _ hr => absurd hr List.not_mem_nil
  final := fun _ hr => absurd hr List.not_mem_nil

/-- Copying stopped at a boundary. -/
theorem Merging.boundary (h : Merging text reach start pushed emitted s)
    (hstart : Utf8.isBoundary text start = true) : Utf8.isBoundary text s.copied = true := by
  obtain ⟨s', hfold, hcopied, -, -⟩ := foldlM_emit (s := Spans.new start)
    (fun r hr => h.aligned r (List.mem_append_left _ hr)) hstart
  obtain rfl := Option.some.inj (hfold.symm.trans h.flushed)
  exact hcopied

/-- The stack with one more span, before anything is emitted. -/
theorem Merging.absorb (h : Merging text reach start pushed emitted s) {x : Range}
    (hproper : x.1 < x.2) (hreach : x.2 ≤ x.1 + reach) (hlast : ∀ r ∈ pushed, r.2 ≤ x.2)
    (haligned : Aligned text x) {a : Nat} {rest : List Range}
    (habsorb : Spans.absorb x.1 s.pending = (a, rest)) :
    Merging text reach start (pushed ++ [x]) emitted { s with pending := (a, x.2) :: rest } := by
  obtain ⟨hemitted, hpending, hcross⟩ := Separated.append_iff.mp h.maximal.separated
  have hends : ∀ r ∈ s.pending, r.2 ≤ x.2 := by
    intro r hr
    obtain ⟨r', hr', hle⟩ := h.bounded r hr
    have := hlast r' hr'
    omega
  have hspec := absorb_spec hproper hpending hends
  rw [habsorb] at hspec
  obtain ⟨hsep, hcover, hstart, hsuffix⟩ := hspec
  -- an emitted span ends before the new one starts
  have hbefore : ∀ r ∈ emitted, r.2 < x.1 := by
    intro r hr
    obtain ⟨r', hr', hlt⟩ := h.final r hr
    have := hlast r' hr'
    omega
  have hreverse : ((a, x.2) :: rest).reverse = rest.reverse ++ [(a, x.2)] := List.reverse_cons
  refine ⟨⟨?_, ?_⟩, h.flushed, ?_, ?_, ?_⟩
  · show Separated (emitted ++ ((a, x.2) :: rest).reverse)
    rw [hreverse]
    refine Separated.append_iff.mpr ⟨hemitted, hsep, ?_⟩
    intro r hr r' hr'
    rcases List.mem_append.mp hr' with hr' | hr'
    · exact hcross r hr r' (List.mem_reverse.mpr (hsuffix.subset (List.mem_reverse.mp hr')))
    · obtain rfl := List.mem_singleton.mp hr'
      show r.2 < a
      rcases hstart with hnew | ⟨p, hp, hold⟩
      · have := hbefore r hr
        have hax : a = x.1 := hnew
        omega
      · have := hcross r hr p (List.mem_reverse.mpr hp)
        have hap : a = p.1 := hold
        omega
  · intro i
    show Covered (emitted ++ ((a, x.2) :: rest).reverse) i ↔ _
    rw [hreverse, covered_append, hcover, covered_append, ← h.maximal.covered i, covered_append,
      covered_cons, or_assoc]
    simp
  · intro r hr
    have hr : r ∈ emitted ++ ((a, x.2) :: rest).reverse := hr
    rw [hreverse] at hr
    rcases List.mem_append.mp hr with hr | hr
    · exact h.aligned r (List.mem_append_left _ hr)
    · rcases List.mem_append.mp hr with hr | hr
      · have hold := hsuffix.subset (List.mem_reverse.mp hr)
        exact h.aligned r (List.mem_append_right _ (List.mem_reverse.mpr hold))
      · obtain rfl := List.mem_singleton.mp hr
        refine ⟨?_, haligned.2⟩
        rcases hstart with hnew | ⟨p, hp, hold⟩
        · exact (show a = x.1 from hnew) ▸ haligned.1
        · have hpa := h.aligned p (List.mem_append_right _ (List.mem_reverse.mpr hp))
          exact (show a = p.1 from hold) ▸ hpa.1
  · intro r hr
    obtain rfl | hr := List.mem_cons.mp hr
    · exact ⟨x, by simp, Nat.le_refl _⟩
    · obtain ⟨r', hr', hle⟩ := h.bounded r (hsuffix.subset hr)
      exact ⟨r', List.mem_append_left _ hr', hle⟩
  · intro r hr
    obtain ⟨r', hr', hlt⟩ := h.final r hr
    exact ⟨r', List.mem_append_left _ hr', hlt⟩

/-- Emitting the front of the stack. -/
theorem Merging.settle (h : Merging text reach start pushed emitted s)
    (hstart : Utf8.isBoundary text start = true) {settled rest : List Range}
    (hsplit : s.pending.reverse = settled ++ rest)
    (hfinal : ∀ r ∈ settled, ∃ r' ∈ pushed, r.2 + reach < r'.2) :
    ∃ s', settled.foldlM (emit text) { s with pending := rest.reverse } = some s' ∧
      Merging text reach start pushed (emitted ++ settled) s' := by
  have haligned : ∀ r ∈ settled, Aligned text r := by
    intro r hr
    refine h.aligned r (List.mem_append_right _ ?_)
    rw [hsplit]
    exact List.mem_append_left _ hr
  obtain ⟨s', hfold, -, hpending, -⟩ :=
    foldlM_emit (s := { s with pending := rest.reverse }) haligned (h.boundary hstart)
  have hstack : s'.pending.reverse = rest := by
    rw [hpending]
    exact List.reverse_reverse rest
  have hwhole : emitted ++ settled ++ s'.pending.reverse = emitted ++ s.pending.reverse := by
    rw [hstack, hsplit, List.append_assoc]
  refine ⟨s', hfold, ?_, ?_, ?_, ?_, ?_⟩
  · rw [hwhole]
    exact h.maximal
  · have hclear := foldlM_emit_pending text [] settled { s with pending := rest.reverse }
    rw [hfold] at hclear
    rw [List.foldlM_append, h.flushed]
    exact hclear
  · rw [hwhole]
    exact h.aligned
  · intro r hr
    refine h.bounded r (List.mem_reverse.mp ?_)
    rw [hsplit, ← hstack]
    exact List.mem_append_right _ (List.mem_reverse.mpr hr)
  · intro r hr
    rcases List.mem_append.mp hr with hr | hr
    · exact h.final r hr
    · exact hfinal r hr

/-- A span that ends last is pushed. -/
theorem Merging.push (h : Merging text reach start pushed emitted s)
    (hstart : Utf8.isBoundary text start = true) {x : Range} (hproper : x.1 < x.2)
    (hreach : x.2 ≤ x.1 + reach) (hlast : ∀ r ∈ pushed, r.2 ≤ x.2) (haligned : Aligned text x) :
    ∃ s' settled, Spans.push text reach s x = some s' ∧
      Merging text reach start (pushed ++ [x]) (emitted ++ settled) s' := by
  cases habsorb : Spans.absorb x.1 s.pending with
  | mk a rest =>
    have habsorbed := h.absorb hproper hreach hlast haligned habsorb
    let final := fun r : Range => decide (r.2 < x.2 - reach)
    have hsplit : ((a, x.2) :: rest).reverse =
        ((a, x.2) :: rest).reverse.takeWhile final ++ ((a, x.2) :: rest).reverse.dropWhile final :=
      List.takeWhile_append_dropWhile.symm
    have hfinal : ∀ r ∈ ((a, x.2) :: rest).reverse.takeWhile final,
        ∃ r' ∈ pushed ++ [x], r.2 + reach < r'.2 := by
      intro r hr
      have hlt := of_decide_eq_true (List.all_eq_true.mp List.all_takeWhile r hr)
      exact ⟨x, by simp, by omega⟩
    obtain ⟨s', hfold, hmerging⟩ := habsorbed.settle hstart hsplit hfinal
    refine ⟨s', _, ?_, hmerging⟩
    rw [Spans.push, habsorb]
    exact hfold

/-- Spans that arrive in the order of their ends. -/
theorem Merging.pushAll (h : Merging text reach start pushed emitted s)
    (hstart : Utf8.isBoundary text start = true) {xs : List Range}
    (hxs : ∀ x ∈ xs, x.1 < x.2 ∧ x.2 ≤ x.1 + reach ∧ Aligned text x)
    (hordered : (pushed ++ xs).Pairwise fun r r' => r.2 ≤ r'.2) :
    ∃ s' settled, xs.foldlM (Spans.push text reach) s = some s' ∧
      Merging text reach start (pushed ++ xs) (emitted ++ settled) s' := by
  induction xs generalizing pushed emitted s with
  | nil =>
    refine ⟨s, [], rfl, ?_⟩
    rw [List.append_nil, List.append_nil]
    exact h
  | cons x xs ih =>
    obtain ⟨⟨hproper, hreach, haligned⟩, hrest⟩ := List.forall_mem_cons.mp hxs
    have hlast : ∀ r ∈ pushed, r.2 ≤ x.2 := fun r hr =>
      (List.pairwise_append.mp hordered).2.2 r hr x List.mem_cons_self
    obtain ⟨s₁, settled₁, hpush, h₁⟩ := h.push hstart hproper hreach hlast haligned
    rw [List.append_cons] at hordered
    obtain ⟨s₂, settled₂, hfold, h₂⟩ := ih h₁ hrest hordered
    refine ⟨s₂, settled₁ ++ settled₂, ?_, ?_⟩
    · rw [List.foldlM_cons, hpush]
      exact hfold
    · rw [List.append_cons, ← List.append_assoc]
      exact h₂

/-- What is left is emitted at the end. -/
theorem Merging.finish (h : Merging text reach start pushed emitted s)
    (hstart : Utf8.isBoundary text start = true) :
    s.finish text = some (replace redacted text start (emitted ++ s.pending.reverse)) := by
  obtain ⟨s', hfold, hboundary, -, hout⟩ := foldlM_emit (s := Spans.new start) h.aligned hstart
  rw [List.foldlM_append, h.flushed] at hfold
  have hfold : s.pending.reverse.foldlM (emit text) { s with pending := [] } = some s' := hfold
  have hlast := hout []
  rw [List.append_nil] at hlast
  have hnew : (Spans.new start).out ++ replace redacted text (Spans.new start).copied
      (emitted ++ s.pending.reverse) = replace redacted text start (emitted ++ s.pending.reverse) :=
    rfl
  rw [hnew] at hlast
  rw [Spans.finish, hfold, Option.bind_some,
    slice_eq (Utf8.isBoundary_le hboundary) hboundary (Utf8.isBoundary_length text),
    Option.map_some, ← hlast, List.take_length]
  rfl

end merging

end Spans

end Kyora
