import Kyora.Attempts.Retry
import Kyora.Tool.Schema
import Kyora.Trace.Values

/-! # Reported usage

  A provider reports its token counters as a record, or as the list of the
  record's fields. It can omit counters, and it can list the iterations behind a
  response that another model took over.
-/

namespace Kyora

/-! ### One counter at a time -/

/-- The counters of a usage, in the order of its fields. -/
inductive Counter where
  | inputTokens | outputTokens | cacheCreationInputTokens | cacheReadInputTokens
  deriving DecidableEq, Repr

namespace Counter

/-- The name of a counter in a record. -/
def field : Counter → String
  | .inputTokens => "input_tokens"
  | .outputTokens => "output_tokens"
  | .cacheCreationInputTokens => "cache_creation_input_tokens"
  | .cacheReadInputTokens => "cache_read_input_tokens"

/-- The place of a counter in a list. -/
def position : Counter → Nat
  | .inputTokens => 0
  | .outputTokens => 1
  | .cacheCreationInputTokens => 2
  | .cacheReadInputTokens => 3

end Counter

namespace Usage

def get (u : Usage) : Counter → Nat
  | .inputTokens => u.inputTokens
  | .outputTokens => u.outputTokens
  | .cacheCreationInputTokens => u.cacheCreationInputTokens
  | .cacheReadInputTokens => u.cacheReadInputTokens

theorem ext_get {u v : Usage} (h : ∀ c, u.get c = v.get c) : u = v := by
  obtain ⟨input, output, creation, read⟩ := u
  obtain ⟨input', output', creation', read'⟩ := v
  have hinput : input = input' := h .inputTokens
  have houtput : output = output' := h .outputTokens
  have hcreation : creation = creation' := h .cacheCreationInputTokens
  have hread : read = read' := h .cacheReadInputTokens
  rw [hinput, houtput, hcreation, hread]

/-- The list of the fields. Counters after the last item are zero. -/
def positional? : Json → Option Usage
  | .array items =>
    if items.length ≤ 4 then
      (items.mapM Json.natural?).map fun counts =>
        ⟨counts.getD 0 0, counts.getD 1 0, counts.getD 2 0, counts.getD 3 0⟩
    else none
  | _ => none

end Usage

namespace UsageIteration

def read (members : Members) : Option UsageIteration := do
  let model ← members.defaulted "model" "" Json.text?
  let kind ← members.required "type" Json.text?
  let usage ← Usage.read (members.without ["model", "type"])
  return ⟨model, kind, usage⟩

def json? : Json → Option UsageIteration := Json.object? read

end UsageIteration

namespace Anthropic

/-- `malformed`. -/
def malformed (field : String) : ProviderError :=
  .protocol s!"invalid Anthropic event field: {field}"

/-- `counters`. -/
def counters : Json → Except ProviderError Usage
  | .null => .ok 0
  | value =>
    match (Usage.json? value).or (Usage.positional? value) with
    | some usage => .ok usage
    | none => .error (malformed "usage")

/-- One counter of `fill_missing_counters`. -/
def filled (usage : Json) (previous latest : Usage) (c : Counter) : Nat :=
  if (usage.get? c.field).isNone then previous.get c else latest.get c

/-- `fill_missing_counters`. -/
def fillMissingCounters (latest : Usage) (usage : Json) (previous : Usage) : Usage where
  inputTokens := filled usage previous latest .inputTokens
  outputTokens := filled usage previous latest .outputTokens
  cacheCreationInputTokens := filled usage previous latest .cacheCreationInputTokens
  cacheReadInputTokens := filled usage previous latest .cacheReadInputTokens

/-- The iterations of a usage, `none` where it does not list any. -/
def iterations (usage : Json) : Except ProviderError (Option (List UsageIteration)) :=
  match usage.get? "iterations" with
  | none | some .null => .ok none
  | some value =>
    match Json.list? UsageIteration.json? value with
    | some iterations => .ok (some iterations)
    | none => .error (malformed "iterations")

/-- The iteration of the model that took over last. -/
def serving (iterations : List UsageIteration) : Option UsageIteration :=
  iterations.reverse.find? fun iteration => iteration.kind == "fallback_message"

/-! ### What a report says -/

/-- What a report says of a counter, by its name or by its place. -/
def reported (usage : Json) (c : Counter) : Option Nat :=
  match usage with
  | .object members => (members.lookup c.field).bind Json.natural?
  | .array items => (items[c.position]?).bind Json.natural?
  | _ => none

/-- What a report says of a counter by its name. -/
def named (usage : Json) (c : Counter) : Option Nat := (usage.get? c.field).bind Json.natural?

end Anthropic

/-! ### Reports that are read -/

theorem Usage.defaulted_of_read {members : Members} {u : Usage} (h : read members = some u)
    (c : Counter) : members.defaulted c.field 0 Json.natural? = some (u.get c) := by
  unfold read at h
  obtain ⟨input, hinput, h⟩ := Option.bind_eq_some_iff.mp h
  obtain ⟨output, houtput, h⟩ := Option.bind_eq_some_iff.mp h
  obtain ⟨creation, hcreation, h⟩ := Option.bind_eq_some_iff.mp h
  obtain ⟨read, hread, h⟩ := Option.bind_eq_some_iff.mp h
  obtain rfl := Option.some.inj h
  cases c
  · exact hinput
  · exact houtput
  · exact hcreation
  · exact hread

theorem getElem?_of_mapM {α β : Type} {f : α → Option β} {xs : List α} {ys : List β}
    (h : xs.mapM f = some ys) (i : Nat) : ys[i]? = xs[i]?.bind f := by
  induction xs generalizing ys i with
  | nil =>
    obtain rfl : [] = ys := Option.some.inj h
    rfl
  | cons x xs ih =>
    rw [List.mapM_cons] at h
    obtain ⟨y, hy, h⟩ := Option.bind_eq_some_iff.mp h
    obtain ⟨rest, hrest, h⟩ := Option.bind_eq_some_iff.mp h
    obtain rfl := Option.some.inj h
    cases i with
    | zero => exact hy.symm
    | succ i => exact ih hrest i

theorem Usage.get_of_positional {items : List Json} {u : Usage}
    (h : positional? (.array items) = some u) (c : Counter) :
    u.get c = (items[c.position]?.bind Json.natural?).getD 0 := by
  by_cases hlen : items.length ≤ 4
  · have hmap : (items.mapM Json.natural?).map (fun counts =>
        (⟨counts.getD 0 0, counts.getD 1 0, counts.getD 2 0, counts.getD 3 0⟩ : Usage)) = some u :=
      (if_pos hlen).symm.trans h
    obtain ⟨counts, hcounts, rfl⟩ := Option.map_eq_some_iff.mp hmap
    rw [← getElem?_of_mapM hcounts, ← List.getD_eq_getElem?_getD]
    cases c <;> rfl
  · have hnone : none = some u := (if_neg hlen).symm.trans h
    cases hnone

namespace Anthropic

/-- A report that is read is a record, a list of its fields or `null`. -/
theorem counters_cases {usage : Json} {u : Usage} (h : counters usage = .ok u) :
    usage = .null ∧ u = 0 ∨
      (∃ members, usage = .object members ∧
        Usage.read (fun key => members.lookup key) = some u) ∨
      ∃ items, usage = .array items ∧ Usage.positional? (.array items) = some u := by
  cases usage with
  | null => exact .inl ⟨rfl, (Except.ok.inj h).symm⟩
  | object members =>
    unfold counters at h
    cases hread : Usage.read (fun key => members.lookup key) with
    | none => simp [Usage.json?, Json.object?, Usage.positional?, hread] at h
    | some v =>
      simp [Usage.json?, Json.object?, hread] at h
      exact .inr (.inl ⟨members, rfl, h ▸ hread⟩)
  | array items =>
    unfold counters at h
    cases hread : Usage.positional? (.array items) with
    | none => simp [Usage.json?, Json.object?, hread] at h
    | some v =>
      simp [Usage.json?, Json.object?, hread] at h
      exact .inr (.inr ⟨items, rfl, h ▸ hread⟩)
  | bool b => cases h
  | integer i => cases h
  | decimal text => cases h
  | string text => cases h

/-- A report that is read gives the counters it reports, and zero for the others. -/
theorem counters_get {usage : Json} {u : Usage} (h : counters usage = .ok u) (c : Counter) :
    u.get c = (reported usage c).getD 0 := by
  rcases counters_cases h with ⟨rfl, rfl⟩ | ⟨members, rfl, hread⟩ | ⟨items, rfl, hread⟩
  · cases c <;> rfl
  · have hfield := Usage.defaulted_of_read hread c
    show u.get c = ((members.lookup c.field).bind Json.natural?).getD 0
    unfold Members.defaulted at hfield
    cases hlookup : members.lookup c.field with
    | none =>
      simp only [hlookup] at hfield
      exact (Option.some.inj hfield).symm
    | some value =>
      simp only [hlookup] at hfield
      rw [Option.bind_some, hfield, Option.getD_some]
  · exact Usage.get_of_positional hread c

/-- A report that is read has a number wherever it has a member for a counter. -/
theorem named_isNone {usage : Json} {u : Usage} (h : counters usage = .ok u) (c : Counter) :
    (usage.get? c.field).isNone = (named usage c).isNone := by
  unfold named
  rcases counters_cases h with ⟨rfl, rfl⟩ | ⟨members, rfl, hread⟩ | ⟨items, rfl, hread⟩
  · rfl
  · have hfield := Usage.defaulted_of_read hread c
    unfold Members.defaulted at hfield
    cases hlookup : (Json.object members).get? c.field with
    | none => rfl
    | some value =>
      have hvalue : members.lookup c.field = some value := hlookup
      simp only [hvalue] at hfield
      rw [Option.bind_some, hfield]
      rfl
  · rfl

/-- What a record says by name is what it reports. -/
theorem reported_of_named {usage : Json} {c : Counter} {n : Nat} (h : named usage c = some n) :
    reported usage c = some n := by
  cases usage with
  | object members => exact h
  | _ => cases h

/-- What a report says by place alone is in a list. -/
theorem named_or_listed {usage : Json} {c : Counter} {n : Nat} (h : reported usage c = some n) :
    named usage c = some n ∨ ∃ items, usage = .array items := by
  cases usage with
  | object members => exact .inl h
  | array items => exact .inr ⟨items, rfl⟩
  | _ => cases h

/-- A report that lists iterations says everything by name. -/
theorem named_of_iterations {usage : Json} {its : List UsageIteration}
    (h : iterations usage = .ok (some its)) (c : Counter) : named usage c = reported usage c := by
  cases usage with
  | object members => rfl
  | _ => cases Except.ok.inj h

/-- Omitted counters come from the previous ones, the others from the report. -/
theorem get_fillMissingCounters {usage : Json} {latest : Usage} (h : counters usage = .ok latest)
    (previous : Usage) (c : Counter) :
    (fillMissingCounters latest usage previous).get c =
      (named usage c).getD (previous.get c) := by
  have hget : (fillMissingCounters latest usage previous).get c =
      filled usage previous latest c := by
    cases c <;> rfl
  rw [hget, filled, named_isNone h c]
  cases hnamed : named usage c with
  | none => rfl
  | some n =>
    rw [counters_get h c, reported_of_named hnamed]
    rfl

end Anthropic

end Kyora
