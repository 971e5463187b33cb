import Kyora.Secrets.Spelling
import Kyora.Framework.Lossy
import Kyora.Text

/-! # What is shown of a redacted text

  A redacted text is a text again, so it can be cut and trimmed by characters. What
  is shown of it copies no byte that the redaction hides.
-/

namespace Kyora

open Ranges (sources)

/-! ### Redacted texts -/

/-- Bytes that are a text. -/
def IsText (bytes : List UInt8) : Prop := ∃ text : List Char, bytes = Utf8.encode text

theorem IsText.append {bytes bytes' : List UInt8} (h : IsText bytes) (h' : IsText bytes') :
    IsText (bytes ++ bytes') := by
  obtain ⟨text, rfl⟩ := h
  obtain ⟨text', rfl⟩ := h'
  exact ⟨text ++ text', (Utf8.encode_append text text').symm⟩

theorem IsText.decode {bytes : List UInt8} (h : IsText bytes) :
    ∃ text, Utf8.decode bytes = some text ∧ bytes = Utf8.encode text := by
  obtain ⟨text, rfl⟩ := h
  exact ⟨text, Utf8.decode_eq_some_iff.mpr rfl, rfl⟩

/-- A slice of a text is a text. -/
theorem isText_slice {text : List Char} {a b : Nat} {bytes : List UInt8}
    (h : slice (Utf8.encode text) a b = some bytes) : IsText bytes := by
  unfold slice at h
  by_cases hab : a ≤ b ∧ Utf8.isBoundary (Utf8.encode text) a ∧ Utf8.isBoundary (Utf8.encode text) b
  · rw [if_pos hab] at h
    obtain ⟨hle, ha, hb⟩ := hab
    obtain ⟨before, after, rfl, rfl⟩ := Utf8.isBoundary_iff.mp hb
    rw [Utf8.encode_append, List.take_left] at h
    obtain rfl := Option.some.inj h
    obtain ⟨first, rest, heq, rfl⟩ := Utf8.isBoundary_iff.mp ha
    have hprefix : Utf8.encode first <+: Utf8.encode before := by
      have hfirst : Utf8.encode first <+: Utf8.encode (before ++ after) :=
        ⟨Utf8.encode rest, by rw [← Utf8.encode_append, heq]⟩
      have hbefore : Utf8.encode before <+: Utf8.encode (before ++ after) :=
        ⟨Utf8.encode after, (Utf8.encode_append before after).symm⟩
      exact List.prefix_of_prefix_length_le hfirst hbefore hle
    obtain ⟨middle, rfl⟩ := Utf8.isPrefix_of_encode hprefix
    exact ⟨middle, by rw [Utf8.encode_append, List.drop_left]⟩
  · rw [if_neg hab] at h
    cases h

section redaction

variable {text : List Char} {spans spans' : Spans}

theorem isText_emit {span : Range} (h : Spans.emit (Utf8.encode text) spans span = some spans')
    (htext : IsText spans.out) : IsText spans'.out := by
  unfold Spans.emit at h
  by_cases hcopied : spans.copied < span.2
  · rw [if_pos hcopied] at h
    obtain ⟨copy, hcopy, rfl⟩ := Option.map_eq_some_iff.mp h
    exact (htext.append (isText_slice hcopy)).append ⟨_, rfl⟩
  · rw [if_neg hcopied] at h
    obtain rfl := Option.some.inj h
    exact htext

theorem isText_emits {ranges : List Range}
    (h : ranges.foldlM (Spans.emit (Utf8.encode text)) spans = some spans')
    (htext : IsText spans.out) : IsText spans'.out := by
  induction ranges generalizing spans with
  | nil =>
    obtain rfl := Option.some.inj h
    exact htext
  | cons span ranges ih =>
    obtain ⟨next, hnext, hrest⟩ := Option.bind_eq_some_iff.mp h
    exact ih hrest (isText_emit hnext htext)

theorem isText_pushes {found : List Range} {reach : Nat}
    (h : found.foldlM (Spans.push (Utf8.encode text) reach) spans = some spans')
    (htext : IsText spans.out) : IsText spans'.out := by
  induction found generalizing spans with
  | nil =>
    obtain rfl := Option.some.inj h
    exact htext
  | cons span found ih =>
    obtain ⟨next, hnext, hrest⟩ := Option.bind_eq_some_iff.mp h
    exact ih hrest (isText_emits hnext htext)

/-- A redacted text is a text. -/
theorem isText_redactSpans {search : Search} {s : Secrets} {start : Nat} {cut : Bool}
    {out : List UInt8} (h : s.redactSpans search (Utf8.encode text) start cut = some out) :
    IsText out := by
  unfold Secrets.redactSpans at h
  by_cases hvalues : s.values.isEmpty = true
  · simp only [hvalues, if_true] at h
    exact isText_slice h
  · simp only [hvalues, Bool.false_eq_true, if_false] at h
    obtain ⟨found, -, h⟩ := Option.bind_eq_some_iff.mp h
    obtain ⟨spans, hspans, h⟩ := Option.bind_eq_some_iff.mp h
    have hout := isText_pushes hspans ⟨[], rfl⟩
    obtain ⟨last, hlast, h⟩ := Option.bind_eq_some_iff.mp h
    obtain ⟨rest, hrest, rfl⟩ := Option.map_eq_some_iff.mp h
    exact (isText_emits hlast hout).append (isText_slice hrest)

end redaction

/-! ### Withheld bytes -/

/-- A text, redacted from a start on, of which no hidden byte is copied. -/
def Withholds (s : Secrets) (text : List UInt8) (start : Nat) (cut : Bool) (hidden : Nat → Prop)
    (out : List Char) : Prop :=
  ∃ a ranges, Reference s text start cut a ranges (Utf8.encode out) ∧
    ∀ i, hidden i → some i ∉ sources text.length a ranges

/-- A byte of a value in a text, which stands there literally or spelled in JSON from
    a token boundary on. -/
def ValueByte (s : Secrets) (text : List Char) (i : Nat) : Prop :=
  ∃ v ∈ s.values, ∃ before spelled after, text = before ++ (spelled ++ after) ∧
    (spelled = v.text ∨ Spelling v.text spelled ∧ AtToken before (spelled ++ after)) ∧
    (Utf8.encode before).length ≤ i ∧
    i < (Utf8.encode before).length + (Utf8.encode spelled).length

/-- A redacted text withholds what is secret in it. -/
theorem redactSpans_withholds {search : Search} (hsearch : Reports search) (s : Secrets)
    {text : List Char} {start : Nat} {cut : Bool} {hidden : Nat → Prop}
    (hsize : (Utf8.encode text).length + 1 + cut.toNat < 2 ^ 32)
    (hsecret : ∀ i, start ≤ i → hidden i → SecretByte s (Utf8.encode text) cut i) :
    ∃ out, s.redactSpans search (Utf8.encode text) start cut = some (Utf8.encode out) ∧
      Withholds s (Utf8.encode text) start cut hidden out := by
  obtain ⟨a, ranges, bytes, hredact, href, -⟩ := redactSpans_spec hsearch hsize s start
  obtain ⟨out, rfl⟩ := isText_redactSpans hredact
  refine ⟨out, hredact, a, ranges, href, ?_⟩
  intro i hi hmem
  obtain ⟨hfirst, hlt, hopen⟩ := (Ranges.mem_sources href.maximal.separated _ _ _).mp hmem
  -- what is copied starts no earlier than asked for
  have hle : min start (Utf8.encode text).length ≤ a := href.first.1.2
  have hstart : start ≤ i := by omega
  exact hopen ((href.maximal.covered i).mpr (hsecret i hstart hi))

end Kyora
