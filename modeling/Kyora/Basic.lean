import Mathlib.Algebra.Group.Basic
import Mathlib.Algebra.Group.Nat.Defs

/-! # Shared vocabulary

  Identifiers, limits, statuses, errors and token counters used by every part
  of the runtime. Counters are exact natural numbers; a `-=` on an unsigned
  counter is `checkedSub`, whose `none` is the underflow.
-/

namespace Kyora

/-- Node and budget scope identifier, allocated monotonically. -/
abbrev NodeId : Type := Nat

/-- `a - b` on an unsigned counter; `none` when it underflows. -/
def checkedSub (a b : Nat) : Option Nat := if b ≤ a then some (a - b) else none

theorem checkedSub_of_le {a b : Nat} (h : b ≤ a) : checkedSub a b = some (a - b) :=
  if_pos h

theorem checkedSub_eq_some {a b c : Nat} :
    checkedSub a b = some c ↔ b ≤ a ∧ c = a - b := by
  unfold checkedSub
  split
  · next h => simp [h, eq_comm]
  · next h => simp [h]

/-! ### Limits and errors -/

/-- Smallest output cap allowed when reducing a reservation. -/
def minOutputTokens : Nat := 4096

/-- Tree and request limits. Durations are in nanoseconds. -/
structure Limits where
  maxDepth : Nat
  budgetTokens : Nat
  maxAgentsTotal : Nat
  maxAgentsLive : Nat
  maxLlmCalls : Nat
  maxInflightRequests : Nat
  maxTurns : Nat
  subagentMaxTurns : Nat
  runTimeout : Nat
  cellTimeout : Nat
  maxCellTimeout : Nat
  requestIdle : Nat
  requestTotal : Nat
  maxOutputTokens : Nat
  llmMaxOutputTokens : Nat
  toolOutputChars : Nat
  mailboxCapacity : Nat
  messageChars : Nat
  deliveryChars : Nat

namespace Limits

/-- The product defaults. -/
def default : Limits where
  maxDepth := 2
  budgetTokens := 20000000
  maxAgentsTotal := 100
  maxAgentsLive := 16
  maxLlmCalls := 2000
  maxInflightRequests := 16
  maxTurns := 200
  subagentMaxTurns := 50
  runTimeout := 7200 * 10 ^ 9
  cellTimeout := 1800 * 10 ^ 9
  maxCellTimeout := 7200 * 10 ^ 9
  requestIdle := 300 * 10 ^ 9
  requestTotal := 1800 * 10 ^ 9
  maxOutputTokens := 32000
  llmMaxOutputTokens := 16000
  toolOutputChars := 20000
  mailboxCapacity := 64
  messageChars := 20000
  deliveryChars := 60000

/-- The counts that must be positive. -/
def counts (l : Limits) : List Nat :=
  [l.maxDepth, l.budgetTokens, l.maxAgentsTotal, l.maxAgentsLive, l.maxLlmCalls,
    l.maxInflightRequests, l.maxTurns, l.subagentMaxTurns, l.maxOutputTokens,
    l.llmMaxOutputTokens, l.toolOutputChars, l.mailboxCapacity, l.messageChars,
    l.deliveryChars]

/-- The durations that must be positive and fit a deadline. -/
def durations (l : Limits) : List Nat :=
  [l.runTimeout, l.cellTimeout, l.maxCellTimeout, l.requestIdle, l.requestTotal]

/-- Rejects zero counts, durations and inconsistent cell deadlines. `fits d`
    says that the clock can represent a deadline `d` from now. -/
def validate (fits : Nat → Bool) (l : Limits) : Except String Unit :=
  if 0 ∈ l.counts then .error "limits must be positive integers"
  else if l.durations.any (· == 0) then .error "durations must be positive"
  else if l.durations.any (fun d => !fits d) then
    .error "duration is too large for a deadline"
  else if l.cellTimeout > l.maxCellTimeout then .error "cell timeout exceeds maximum"
  else .ok ()

/-- The defaults pass their own check on every clock that can represent their
    longest duration. -/
theorem validate_default {fits : Nat → Bool} (h : ∀ d ≤ 7200 * 10 ^ 9, fits d = true) :
    default.validate fits = .ok () := by
  have hlong : fits 7200000000000 = true := h _ (by decide)
  have hcell : fits 1800000000000 = true := h _ (by decide)
  have hidle : fits 300000000000 = true := h _ (by decide)
  simp [validate, counts, durations, default, hlong, hcell, hidle]

end Limits

/-- Recoverable admission, messaging and leaf-call errors. -/
inductive RecursionError where
  | limitExceeded (limit : String)
  | budgetExceeded
  | invalidRequest (reason : String)
  | cancelled
  | modelError (reason : String)
  | mailboxFull (agent : NodeId)
  | agentFinished (agent : NodeId)
  deriving DecidableEq, Repr

/-- Node termination status. -/
inductive Status where
  | completed | maxTurns | budgetExhausted | timeout | contextExhausted
  | cancelled | refused | failed | interrupted
  deriving DecidableEq, Repr

/-- The spelling of a status in records and renderings. -/
def Status.asStr : Status → String
  | .completed => "completed"
  | .maxTurns => "max_turns"
  | .budgetExhausted => "budget_exhausted"
  | .timeout => "timeout"
  | .contextExhausted => "context_exhausted"
  | .cancelled => "cancelled"
  | .refused => "refused"
  | .failed => "failed"
  | .interrupted => "interrupted"

/-! ### Token counters -/

/-- Token counters of one request or of a sum of requests. -/
structure Usage where
  inputTokens : Nat
  outputTokens : Nat
  cacheCreationInputTokens : Nat
  cacheReadInputTokens : Nat
  deriving DecidableEq, Repr

namespace Usage

/-- `Usage::default()`. -/
instance : Zero Usage := ⟨⟨0, 0, 0, 0⟩⟩

/-- Componentwise sum, `impl Add for Usage`. -/
instance : Add Usage :=
  ⟨fun a b => ⟨a.inputTokens + b.inputTokens, a.outputTokens + b.outputTokens,
    a.cacheCreationInputTokens + b.cacheCreationInputTokens,
    a.cacheReadInputTokens + b.cacheReadInputTokens⟩⟩

/-- The sum of all four token counters. -/
def total (u : Usage) : Nat :=
  u.inputTokens + u.outputTokens + u.cacheCreationInputTokens + u.cacheReadInputTokens

theorem add_def (a b : Usage) :
    a + b = ⟨a.inputTokens + b.inputTokens, a.outputTokens + b.outputTokens,
      a.cacheCreationInputTokens + b.cacheCreationInputTokens,
      a.cacheReadInputTokens + b.cacheReadInputTokens⟩ := rfl

theorem zero_def : (0 : Usage) = ⟨0, 0, 0, 0⟩ := rfl

instance : AddCommMonoid Usage where
  add_assoc a b c := by simp only [add_def, Nat.add_assoc]
  zero_add a := by simp only [add_def, zero_def, Nat.zero_add]
  add_zero a := by simp only [add_def, zero_def, Nat.add_zero]
  add_comm a b := by simp only [add_def, Nat.add_comm]
  nsmul := nsmulRec

@[simp] theorem total_zero : (0 : Usage).total = 0 := rfl

@[simp] theorem total_add (a b : Usage) : (a + b).total = a.total + b.total := by
  simp only [total, add_def]
  omega

end Usage

end Kyora
