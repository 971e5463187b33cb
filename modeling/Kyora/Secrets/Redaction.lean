import Kyora.Secrets.Matches
import Kyora.Secrets.Spans
import Mathlib.Order.Bounds.Basic

/-! # Redaction and its specification

  The specification speaks of the bytes of the text only: the secret ones are
  those of an occurrence, each maximal run of them is replaced by one
  placeholder, and every other byte is kept. The redaction that merges matches
  on the fly is this one, and what it emits early is never taken back.
-/

namespace Kyora

open Ranges (Covered Maximal replace)

/-- A byte of an occurrence. -/
def SecretByte (s : Secrets) (text : List UInt8) (cut : Bool) (i : Nat) : Prop :=
  ∃ r, Secret s text cut r ∧ r.1 ≤ i ∧ i < r.2

/-- The first character boundary from `start` on, or the end of the text. -/
def FirstBoundary (text : List UInt8) (start a : Nat) : Prop :=
  IsLeast {i | Utf8.isBoundary text i = true ∧ min start text.length ≤ i} a

/-- The redacted text: from a boundary on, every maximal run of secret bytes
    replaced by one placeholder. -/
structure Reference (s : Secrets) (text : List UInt8) (start : Nat) (cut : Bool) (a : Nat)
    (ranges : List Range) (out : List UInt8) : Prop where
  first : FirstBoundary text start a
  maximal : Maximal (SecretByte s text cut) ranges
  out : out = replace redacted text a ranges

/-- What is emitted after any number of matches is an initial part of the ranges. -/
def EmitsFinal (search : Search) (s : Secrets) (text : List UInt8) (cut : Bool) (a : Nat)
    (ranges : List Range) : Prop :=
  ∀ front back, s.findMatches search text cut = some (front ++ back) →
    ∃ spans emitted, front.foldlM (Spans.push text s.reach) (Spans.new a) = some spans ∧
      emitted.foldlM (Spans.emit text) (Spans.new a) = some { spans with pending := [] } ∧
      emitted <+: ranges

/-- The specification determines the output. -/
theorem Reference.unique {s : Secrets} {text out out' : List UInt8} {start a a' : Nat} {cut : Bool}
    {ranges ranges' : List Range} (h : Reference s text start cut a ranges out)
    (h' : Reference s text start cut a' ranges' out') : out = out' := by
  rw [h.out, h'.out, h.first.unique h'.first, h.maximal.unique h'.maximal]

/-! ### The start -/

theorem alignUp_spec {text : List UInt8} {fuel start : Nat} (hstart : start ≤ text.length)
    (hfuel : text.length ≤ start + fuel) :
    IsLeast {i | Utf8.isBoundary text i = true ∧ start ≤ i} (Secrets.alignUp text fuel start) := by
  induction fuel generalizing start with
  | zero =>
    obtain rfl : start = text.length := by omega
    exact ⟨⟨Utf8.isBoundary_length text, Nat.le_refl _⟩, fun i hi => hi.2⟩
  | succ fuel ih =>
    by_cases hboundary : Utf8.isBoundary text start = true
    · rw [Secrets.alignUp, if_pos hboundary]
      exact ⟨⟨hboundary, Nat.le_refl _⟩, fun i hi => hi.2⟩
    · have hlt : start < text.length := by
        rcases Nat.lt_or_eq_of_le hstart with hlt | rfl
        · exact hlt
        · exact absurd (Utf8.isBoundary_length text) hboundary
      obtain ⟨⟨haligned, hle⟩, hleast⟩ := @ih (start + 1) (by omega) (by omega)
      rw [Secrets.alignUp, if_neg hboundary]
      refine ⟨⟨haligned, by omega⟩, ?_⟩
      rintro i ⟨hi, hle'⟩
      -- the start itself is no boundary
      have hne : i ≠ start := by
        rintro rfl
        exact hboundary hi
      exact hleast ⟨hi, by omega⟩

theorem firstBoundary_alignUp (text : List UInt8) (start : Nat) :
    FirstBoundary text start (Secrets.alignUp text text.length (min start text.length)) :=
  alignUp_spec (Nat.min_le_right _ _) (Nat.le_add_left _ _)

/-! ### The spans of occurrences -/

section redaction

variable {search : Search} {s : Secrets} {text : List Char} {cut : Bool} {r : Range}

theorem aligned_of_split {before found after : List Char} (htext : text = before ++ found ++ after)
    (hr : r = ((Utf8.encode before).length, (Utf8.encode (before ++ found)).length)) :
    Spans.Aligned (Utf8.encode text) r := by
  subst hr htext
  refine ⟨?_, Utf8.isBoundary_append (before ++ found) after⟩
  have hboundary := Utf8.isBoundary_append before (found ++ after)
  rw [← List.append_assoc] at hboundary
  exact hboundary

theorem lead_boundary {i : Nat} (h : Utf8.isBoundary (0x5C :: Utf8.encode text) i = true) :
    Utf8.isBoundary (Utf8.encode text) (i - 1) = true := by
  rw [← encode_backslash] at h
  obtain ⟨before, after, heq, rfl⟩ := Utf8.isBoundary_iff.mp h
  cases before with
  | nil => exact Utf8.isBoundary_zero _
  | cons c before =>
    obtain ⟨rfl, rfl⟩ := List.cons.inj heq
    exact Utf8.isBoundary_append before after

/-- An occurrence is not empty, no longer than the reach, and on boundaries. -/
theorem Secret.span (h : Secret s (Utf8.encode text) cut r) :
    r.1 < r.2 ∧ r.2 ≤ r.1 + s.reach ∧ Spans.Aligned (Utf8.encode text) r := by
  have hmin : minSecretChars = 6 := rfl
  rcases h with h | h | ⟨-, r', h, rfl⟩
  · obtain ⟨v, hv, before, after, htext, rfl⟩ := h.split
    have hpos : 0 < v.bytes.length :=
      List.length_pos_iff.mpr fun hnil => v.text_ne_nil (Utf8.encode_eq_nil hnil)
    have hlongest := Secrets.length_le_longest hv
    have hlength : (Utf8.encode (before ++ v.text)).length =
        (Utf8.encode before).length + v.bytes.length := by
      rw [Utf8.encode_append, List.length_append]
      rfl
    refine ⟨?_, ?_, aligned_of_split htext rfl⟩
    · show (Utf8.encode before).length < (Utf8.encode (before ++ v.text)).length
      omega
    · show (Utf8.encode (before ++ v.text)).length ≤ (Utf8.encode before).length + s.reach
      rw [Secrets.reach, Secrets.escapeGrowth]
      omega
  · obtain ⟨hlong, hreach, before, found, after, htext, hr⟩ := h.bounds
    exact ⟨by omega, hreach, aligned_of_split htext hr⟩
  · rw [← encode_backslash] at h
    obtain ⟨hlong, hreach, before, found, after, htext, hr⟩ := h.bounds
    obtain ⟨hstart, hstop⟩ := aligned_of_split htext hr
    -- one byte less at each end, but not before the text
    refine ⟨?_, ?_, lead_boundary hstart, lead_boundary hstop⟩
    · show r'.1 - 1 < r'.2 - 1
      omega
    · show r'.2 - 1 ≤ r'.1 - 1 + s.reach
      omega

/-! ### The result -/

/-- The redaction is the specified one. -/
theorem redactSpans_spec (hsearch : Reports search)
    (hsize : (Utf8.encode text).length + 1 + cut.toNat < 2 ^ 32) (s : Secrets) (start : Nat) :
    ∃ a ranges out, s.redactSpans search (Utf8.encode text) start cut = some out ∧
      Reference s (Utf8.encode text) start cut a ranges out ∧
      EmitsFinal search s (Utf8.encode text) cut a ranges := by
  have hfirst := firstBoundary_alignUp (Utf8.encode text) start
  generalize halign : Secrets.alignUp (Utf8.encode text) (Utf8.encode text).length
    (min start (Utf8.encode text).length) = a at hfirst
  have hboundary : Utf8.isBoundary (Utf8.encode text) a = true := hfirst.1.1
  obtain ⟨found, hfound, hordered, hmem⟩ :=
    findMatches_spec hsearch s text hsize
  have hspans : ∀ x ∈ found, x.1 < x.2 ∧ x.2 ≤ x.1 + s.reach ∧
      Spans.Aligned (Utf8.encode text) x := fun x hx => ((hmem x).mp hx).span
  have hcovered : ∀ i, Covered found i ↔ SecretByte s (Utf8.encode text) cut i := by
    intro i
    constructor
    · rintro ⟨r, hr, hi⟩
      exact ⟨r, (hmem r).mp hr, hi⟩
    · rintro ⟨r, hr, hi⟩
      exact ⟨r, (hmem r).mpr hr, hi⟩
  obtain ⟨spans, emitted, hfold, hmerging⟩ :=
    Spans.Merging.init.pushAll hboundary hspans (by rw [List.nil_append]; exact hordered)
  rw [List.nil_append, List.nil_append] at hmerging
  have hmaximal : Maximal (SecretByte s (Utf8.encode text) cut)
      (emitted ++ spans.pending.reverse) :=
    ⟨hmerging.maximal.separated, fun i => (hmerging.maximal.covered i).trans (hcovered i)⟩
  refine ⟨a, emitted ++ spans.pending.reverse, _, ?_, ⟨hfirst, hmaximal, rfl⟩, ?_⟩
  · simp only [Secrets.redactSpans, halign]
    by_cases hvalues : s.values.isEmpty = true
    · -- nothing occurs, so nothing is replaced
      have hnil : emitted ++ spans.pending.reverse = [] := by
        refine hmaximal.unique ⟨Ranges.Separated.nil, fun i => ?_⟩
        rw [← hcovered i]
        refine ⟨fun h => absurd h Ranges.covered_nil, ?_⟩
        rintro ⟨r, hr, -⟩
        have hempty := List.isEmpty_iff.mp hvalues
        rcases (hmem r).mp hr with h | ⟨_, _, _, _, ⟨v, hv, _⟩, _⟩ |
          ⟨-, _, ⟨_, _, _, _, ⟨v, hv, _⟩, _⟩, _⟩
        · obtain ⟨v, hv, -⟩ := h.split
          rw [hempty] at hv
          exact absurd hv List.not_mem_nil
        · rw [hempty] at hv
          exact absurd hv List.not_mem_nil
        · rw [hempty] at hv
          exact absurd hv List.not_mem_nil
      rw [if_pos hvalues, hnil, Spans.slice_eq (Utf8.isBoundary_le hboundary) hboundary
        (Utf8.isBoundary_length _), List.take_length]
      rfl
    · rw [if_neg hvalues, hfound, Option.bind_eq_bind, Option.bind_some, hfold,
        Option.bind_eq_bind, Option.bind_some]
      exact hmerging.finish hboundary
  · intro front back hsplit
    obtain rfl := Option.some.inj (hfound.symm.trans hsplit)
    obtain ⟨hfront, hback⟩ := List.forall_mem_append.mp hspans
    obtain ⟨spans₁, emitted₁, hfold₁, hmerging₁⟩ :=
      Spans.Merging.init.pushAll hboundary hfront
        (by rw [List.nil_append]; exact (List.pairwise_append.mp hordered).1)
    rw [List.nil_append, List.nil_append] at hmerging₁
    -- the matches to come only add to what was emitted
    obtain ⟨spans₂, emitted₂, hfold₂, hmerging₂⟩ := hmerging₁.pushAll hboundary hback hordered
    refine ⟨spans₁, emitted₁, hfold₁, hmerging₁.flushed, ?_⟩
    rw [hmerging.maximal.unique hmerging₂.maximal, List.append_assoc]
    exact List.prefix_append _ _

/-- `redact_from` and `redact_cut` are what they are specified to be. -/
theorem redact_eq_reference (hsearch : Reports search)
    (hsize : (Utf8.encode text).length < 2 ^ 32 - 2) (s : Secrets) (start : Nat) :
    (∃ a ranges out, s.redactFrom search (Utf8.encode text) start = some out ∧
      Reference s (Utf8.encode text) start false a ranges out ∧
      EmitsFinal search s (Utf8.encode text) false a ranges) ∧
    ∃ a ranges out, s.redactCut search (Utf8.encode text) start = some out ∧
      Reference s (Utf8.encode text) start true a ranges out ∧
      EmitsFinal search s (Utf8.encode text) true a ranges :=
  ⟨redactSpans_spec hsearch (by rw [Bool.toNat_false]; omega) s start,
    redactSpans_spec hsearch (by rw [Bool.toNat_true]; omega) s start⟩

end redaction

/-! ### A search -/

/-- Tries every value at every end. -/
def tryAll : Search := fun values text =>
  (List.range (text.length + 1)).flatMap fun stop =>
    (values.filter fun v => v.isSuffixOf (text.take stop)).map fun v => (stop - v.length, stop)

theorem mem_tryAll {values : List (List UInt8)} {text : List UInt8} {r : Range} :
    r ∈ tryAll values text ↔ Occurs values text r := by
  rw [tryAll, List.mem_flatMap]
  constructor
  · rintro ⟨stop, hstop, hr⟩
    obtain ⟨v, hv, rfl⟩ := List.mem_map.mp hr
    obtain ⟨hv, hsuffix⟩ := List.mem_filter.mp hv
    obtain ⟨before, hbefore⟩ := List.isSuffixOf_iff_suffix.mp hsuffix
    have hlength := congrArg List.length hbefore
    rw [List.length_append, List.length_take, Nat.min_eq_left
      (Nat.le_of_lt_succ (List.mem_range.mp hstop))] at hlength
    refine ⟨v, hv, before, text.drop stop, ?_, ?_⟩
    · rw [hbefore, List.take_append_drop]
    · exact Prod.ext (by omega) (by omega)
  · rintro ⟨v, hv, before, after, rfl, rfl⟩
    refine ⟨before.length + v.length, List.mem_range.mpr ?_, List.mem_map.mpr ⟨v, ?_, ?_⟩⟩
    · rw [List.length_append, List.length_append]
      omega
    · refine List.mem_filter.mpr ⟨hv, List.isSuffixOf_iff_suffix.mpr ⟨before, ?_⟩⟩
      rw [← List.length_append, List.take_left]
    · rw [Nat.add_sub_cancel]

theorem reports_tryAll : Reports tryAll where
  mem_iff _ _ _ := mem_tryAll
  ordered values text := by
    refine List.pairwise_flatMap.mpr ⟨?_, ?_⟩
    · intro stop _
      refine List.pairwise_map.mpr (List.pairwise_of_forall ?_)
      exact fun _ _ => Nat.le_refl _
    · refine List.pairwise_lt_range.imp ?_
      intro stop stop' hlt r hr r' hr'
      obtain ⟨v, -, rfl⟩ := List.mem_map.mp hr
      obtain ⟨v', -, rfl⟩ := List.mem_map.mp hr'
      exact Nat.le_of_lt hlt

/-- One value, as it is and with an escaped letter, in one text. -/
def onePassword : Secrets := ⟨[⟨"abcdef".toList, by decide, by decide⟩], []⟩

theorem redact_eq_reference_password :
    (∃ a ranges out, onePassword.redactFrom tryAll (Utf8.encode "x\\u0061bcdef!".toList) 0 =
        some out ∧
      Reference onePassword (Utf8.encode "x\\u0061bcdef!".toList) 0 false a ranges out ∧
      EmitsFinal tryAll onePassword (Utf8.encode "x\\u0061bcdef!".toList) false a ranges) ∧
    ∃ a ranges out, onePassword.redactCut tryAll (Utf8.encode "x\\u0061bcdef!".toList) 0 =
        some out ∧
      Reference onePassword (Utf8.encode "x\\u0061bcdef!".toList) 0 true a ranges out ∧
      EmitsFinal tryAll onePassword (Utf8.encode "x\\u0061bcdef!".toList) true a ranges :=
  redact_eq_reference reports_tryAll (by decide) onePassword 0

end Kyora
