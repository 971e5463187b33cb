import Kyora.Ledger.Basic

/-! # Provider errors and the retry policy

  How a failed attempt is charged, and whether another one follows.
-/

namespace Kyora

open Ledger (AttemptCharge)

/-- Why an attempt failed. -/
inductive ProviderError where
  /-- An unsuccessful HTTP response received before any stream event. -/
  | http (status : Nat) (message : String) (retryAfter : Option Nat)
  /-- No request bytes were sent. -/
  | notSent (reason : String)
  | transport (reason : String)
  /-- An error event inside an otherwise successful stream. -/
  | stream (kind message : String)
  | idleTimeout
  | protocol (reason : String)
  /-- Cancelled after the request may have reached the server. -/
  | cancelled
  | contextTooLarge (reason : String)
  | other (reason : String)
  deriving DecidableEq, Repr

namespace ProviderError

/-- Whether retrying the same request may succeed. -/
def isRetryable : ProviderError → Bool
  | .notSent _ | .transport _ | .idleTimeout => true
  | .http status _ _ => [408, 409, 429, 500, 502, 503, 504, 529].contains status
  | .stream kind _ => kind == "overloaded_error" || kind == "api_error"
  | .protocol _ | .cancelled | .contextTooLarge _ | .other _ => false

/-- What the failed attempt is charged when no usage was reported. -/
def charge : ProviderError → AttemptCharge
  | .notSent _ | .contextTooLarge _ => .zero
  | .http status _ _ =>
    if (400 ≤ status ∧ status < 500) ∨ status = 529 then .zero else .reserved
  | _ => .reserved

/-- The provider's requested retry delay, if any. -/
def retryAfter : ProviderError → Option Nat
  | .http _ _ retryAfter => retryAfter
  | _ => none

/-- A 429 without `retry-after`. -/
def isUnhinted : ProviderError → Bool
  | .http 429 _ none => true
  | _ => false

/-- Whether the status is 429. -/
def isRateLimit : ProviderError → Bool
  | .http status _ _ => status == 429
  | _ => false

theorem isUnhinted_iff {e : ProviderError} :
    e.isUnhinted = true ↔ e.isRateLimit = true ∧ e.retryAfter = none := by
  cases e with
  | http status message after =>
    by_cases hstatus : status = 429
    · subst hstatus
      cases after with
      | none => simp [isUnhinted, isRateLimit, retryAfter]
      | some delay => simp [isUnhinted, isRateLimit, retryAfter]
    · have hno : isUnhinted (.http status message after) = false := by
        unfold isUnhinted
        split
        · next heq => exact absurd (ProviderError.http.inj heq).1 hstatus
        · rfl
      simp [hno, isRateLimit, hstatus]
  | _ => simp [isUnhinted, isRateLimit]

end ProviderError

/-- Decides whether and when to retry a failed attempt. Durations are in
    nanoseconds. -/
structure RetryPolicy where
  /-- Maximum retries after the first attempt. -/
  maxRetries : Nat
  /-- Backoff base delay. -/
  base : Nat
  /-- Upper bound for one backoff delay and for an honored `retry-after`. -/
  cap : Nat
  /-- Maximum retries of a 429 that carries no `retry-after`. -/
  maxUnhinted429Retries : Nat

namespace RetryPolicy

def default : RetryPolicy where
  maxRetries := 4
  base := 10 ^ 9
  cap := 60 * 10 ^ 9
  maxUnhinted429Retries := 1

/-- The delay before the next attempt, or `none` to give up. `jitter` draws
    the delay below a ceiling. -/
def nextDelay (p : RetryPolicy) (error : ProviderError) (failures unhinted429s : Nat)
    (jitter : Nat → Nat) : Option Nat :=
  if !error.isRetryable || failures > p.maxRetries then none
  else
    match error.retryAfter with
    | some delay => some (min delay p.cap)
    | none =>
      if error.isRateLimit && unhinted429s > p.maxUnhinted429Retries then none
      else
        let exponent := min (failures - 1) 30
        some (jitter (min (p.base * 2 ^ exponent) p.cap))

/-- What a retry says about the counters. -/
theorem nextDelay_eq_some {p : RetryPolicy} {error : ProviderError} {failures unhinted429s : Nat}
    {jitter : Nat → Nat} {delay : Nat}
    (h : p.nextDelay error failures unhinted429s jitter = some delay) :
    failures ≤ p.maxRetries ∧
      (error.isUnhinted = true → unhinted429s ≤ p.maxUnhinted429Retries) := by
  unfold nextDelay at h
  split at h
  · cases h
  · next hgo =>
    simp only [Bool.or_eq_true, decide_eq_true_eq, not_or, Nat.not_lt, gt_iff_lt] at hgo
    refine ⟨hgo.2, fun hunhinted => ?_⟩
    obtain ⟨hlimit, hnone⟩ := ProviderError.isUnhinted_iff.mp hunhinted
    rw [hnone] at h
    simp only [hlimit, Bool.true_and] at h
    split at h
    · cases h
    · next hle =>
      simpa using hle

end RetryPolicy

end Kyora
