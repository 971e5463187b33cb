import Kyora.Attempts.Retry
import Kyora.Ledger.Budget

/-! # Model attempts

  Every call of `Runtime::attempts` as a task of its own: it takes a permit of
  the request semaphore, reserves on the ledger, dispatches, settles, releases
  the permit, and perhaps goes round again. A call leaves through its scope:
  what it still holds is dropped in reverse order, the reservation guard
  before the permit. That holds for an early return, a panic that unwinds and
  a future that is dropped.

  Records only matter by whether the trace sink accepts them.
-/

namespace Kyora.Attempts

open Ledger (Reservation Issued Session Charge AttemptCharge)

/-! ### Calls -/

structure Config where
  limits : Limits
  retry : RetryPolicy

/-- `ReservationGuard`: an unsettled reservation. -/
structure Guard where
  reservation : Reservation
  /-- The request may have been sent. -/
  dispatched : Bool
  deriving DecidableEq, Repr

/-- What a dispatched request came to. -/
inductive Result where
  | response (usage : Usage)
  | failure (error : ProviderError)
  deriving DecidableEq, Repr

/-- The charge selected for a result. -/
def Result.charge : Result → Charge
  | .response usage => .usage usage
  | .failure error => .failed error.charge

/-- How a call ends. -/
inductive Exit where
  | response
  | cancelled
  | budget
  | provider (error : ProviderError)
  /-- The trace sink refused a record. -/
  | trace
  | panicked
  /-- The future was dropped, or something it awaited panicked. -/
  | dropped
  deriving DecidableEq, Repr

/-- Where a call stands. -/
inductive Pc where
  /-- Waiting for the model's limits. -/
  | resolving
  /-- Waiting for a permit. -/
  | acquiring
  | admitted
  /-- The record of the attempt's start is being written. -/
  | starting
  | dispatching
  | streaming
  /-- The request is over, and its reservation is to be settled. -/
  | finished (result : Result) (panicked : Bool)
  /-- The permit is to be released. -/
  | settled (result : Result) (panicked : Bool)
  /-- The record of the attempt's end is being written. -/
  | recording (result : Result) (panicked : Bool)
  | failed (error : ProviderError)
  /-- The record of a stream that starts over is being written. -/
  | resetting
  | waiting
  /-- The scope is left: what is held is dropped. -/
  | leaving (exit : Exit)
  | ended (exit : Exit)
  deriving DecidableEq, Repr

structure Call where
  node : NodeId
  /-- The estimate of the prompt. -/
  prompt : Nat
  /-- The output cap the loop starts with: that of the request, bounded by the
      model's own limit. -/
  requested : Nat
  /-- `request.max_tokens`. -/
  maxTokens : Nat
  failures : Nat
  unhinted : Nat
  /-- A part of the stream was already shown. -/
  isPartial : Bool
  permit : Bool
  guard : Option Guard
  pc : Pc
  /-- The output caps dispatched so far. -/
  caps : List Nat
  /-- The retries made after a 429 without `retry-after`. -/
  unhintedRetries : Nat
  deriving DecidableEq, Repr

/-! ### State -/

/-- A settlement with what the call knew about the request. -/
structure Record where
  issued : Issued
  dispatched : Bool
  charge : Charge

structure State where
  session : Session
  /-- Free permits of the semaphore. -/
  slots : Nat
  calls : List Call
  /-- Every reservation obtained, oldest first. -/
  obtained : List Issued
  /-- Every settlement, oldest first. -/
  log : List Record

def State.setCall (s : State) (k : Nat) (c : Call) : State :=
  { s with calls := s.calls.set k c }

/-! ### Labels -/

inductive Label where
  /-- Another task admits, closes or shuts a node down. -/
  | ledger (l : Ledger.Call)
  | call (node : NodeId) (maxTokens : Nat)
  /-- The model's limits arrive. -/
  | resolved (k : Nat) (limit : Option Nat) (prompt : Nat)
  | unresolved (k : Nat) (error : ProviderError)
  /-- The call notices that its node was stopped or its time is up. -/
  | cancelled (k : Nat)
  | acquire (k : Nat)
  | reserve (k : Nat)
  /-- The trace sink takes the record that is being written, or refuses it. -/
  | emitted (k : Nat)
  | refused (k : Nat)
  /-- The node was stopped before the request was sent. -/
  | unsent (k : Nat)
  | dispatch (k : Nat)
  /-- The provider is done, one way or the other. -/
  | stream (k : Nat) (result : Result) (isPartial : Bool)
  | panicked (k : Nat) (isPartial : Bool)
  | settle (k : Nat)
  | release (k : Nat)
  | retry (k : Nat) (jitter : Nat → Nat)
  | wake (k : Nat)
  /-- The future is dropped at an await, or what it awaits panics. -/
  | unwind (k : Nat)
  /-- One drop of the scope that is left. -/
  | leave (k : Nat)

/-- The calls on the ledger that other tasks make. -/
def isForeign : Ledger.Call → Bool
  | .admitChild _ _ _ | .closeAdmission _ | .shutdown _ => true
  | _ => false

/-! ### Steps -/

/-- `ReservationGuard::settle`, or its drop: settles the reservation once. -/
def State.settle (cfg : Config) (s : State) (c : Call) (g : Guard) (charge : Charge) :
    Option State :=
  let x : Issued := ⟨c.node, g.reservation⟩
  (Ledger.step cfg.limits s.session (.settle x charge)).map fun session =>
    { s with session, log := s.log ++ [⟨x, g.dispatched, charge⟩] }

/-- What dropping an unsettled guard charges. -/
def Guard.dropCharge (g : Guard) : Charge :=
  .failed (if g.dispatched then .reserved else .zero)

/-- A call that starts. -/
def Call.fresh (node : NodeId) (maxTokens : Nat) : Call where
  node := node
  prompt := 0
  requested := maxTokens
  maxTokens := maxTokens
  failures := 0
  unhinted := 0
  isPartial := false
  permit := false
  guard := none
  pc := .resolving
  caps := []
  unhintedRetries := 0

/-- The limits of the model bound the cap the call goes on to request. -/
def Call.resolve (cfg : Config) (c : Call) (limit : Option Nat) (prompt : Nat) : Call :=
  let maxTokens := min c.maxTokens (limit.getD cfg.limits.maxOutputTokens)
  { c with prompt, maxTokens, requested := maxTokens, pc := .acquiring }

/-- A call checks whether its node was stopped, or waits for that, here. -/
def Pc.isCancellable : Pc → Bool
  | .resolving | .acquiring | .admitted | .failed _ | .waiting => true
  | _ => false

/-- The awaits of a call. -/
def Pc.isAwait : Pc → Bool
  | .resolving | .acquiring | .starting | .streaming | .recording _ _ | .resetting
  | .waiting => true
  | _ => false

/-- A record was written. -/
def stepEmitted (s : State) (k : Nat) (c : Call) : Option State :=
  match c.pc with
  | .starting => c.guard.map fun g =>
    s.setCall k { c with
      maxTokens := g.reservation.maxTokens, isPartial := false, pc := .dispatching }
  | .recording result panicked =>
    some (s.setCall k { c with
      pc := if panicked then .leaving .panicked
        else match result with
          | .response _ => .leaving .response
          | .failure error => .failed error })
  | .resetting => some (s.setCall k { c with pc := .waiting })
  | _ => none

/-- A record was refused. -/
def stepRefused (cfg : Config) (s : State) (k : Nat) (c : Call) : Option State :=
  match c.pc with
  | .starting => c.guard.bind fun g =>
    (s.settle cfg c g (.failed .zero)).map fun t =>
      t.setCall k { c with guard := none, pc := .leaving .trace }
  | .recording _ _ => some (s.setCall k { c with pc := .leaving .trace })
  | .resetting => some (s.setCall k { c with pc := .leaving .trace })
  | _ => none

/-- The decision after a failure. -/
def stepRetry (cfg : Config) (s : State) (k : Nat) (c : Call) (jitter : Nat → Nat) :
    Option State :=
  match c.pc with
  | .failed error =>
    let failures := c.failures + 1
    let unhinted := c.unhinted + error.isUnhinted.toNat
    let c := { c with failures, unhinted }
    some (s.setCall k (
      match cfg.retry.nextDelay error failures unhinted jitter with
      | none => { c with pc := .leaving (.provider error) }
      | some _ => { c with
        unhintedRetries := c.unhintedRetries + error.isUnhinted.toNat
        pc := if c.isPartial then .resetting else .waiting }))
  | _ => none

/-- One drop: the guard if it is still there, then the permit. -/
def stepLeave (cfg : Config) (s : State) (k : Nat) (c : Call) : Option State :=
  match c.pc with
  | .leaving exit =>
    match c.guard with
    | some g => (s.settle cfg c g g.dropCharge).map fun t =>
      t.setCall k { c with guard := none }
    | none =>
      if c.permit then
        some ({ s with slots := s.slots + 1 }.setCall k { c with permit := false })
      else some (s.setCall k { c with pc := .ended exit })
  | _ => none

def step (cfg : Config) (s : State) : Label → Option State
  | .ledger l =>
    if isForeign l then
      (Ledger.step cfg.limits s.session l).map fun session => { s with session }
    else none
  | .call node maxTokens => some { s with calls := s.calls ++ [.fresh node maxTokens] }
  | .resolved k limit prompt =>
    (s.calls[k]?).bind fun c =>
      if c.pc = .resolving then some (s.setCall k (c.resolve cfg limit prompt)) else none
  | .unresolved k error =>
    (s.calls[k]?).bind fun c =>
      if c.pc = .resolving then some (s.setCall k { c with pc := .leaving (.provider error) })
      else none
  | .cancelled k =>
    (s.calls[k]?).bind fun c =>
      if c.pc.isCancellable then some (s.setCall k { c with pc := .leaving .cancelled })
      else none
  | .acquire k =>
    (s.calls[k]?).bind fun c =>
      if c.pc = .acquiring then
        (checkedSub s.slots 1).map fun slots =>
          { s with slots }.setCall k { c with permit := true, pc := .admitted }
      else none
  | .reserve k =>
    (s.calls[k]?).bind fun c =>
      if c.pc = .admitted then
        (Ledger.reserve s.session.ledger c.node c.prompt c.maxTokens).map fun r =>
          match r with
          | (ledger, .ok r) =>
            { s with
              session := s.session.keep c.node (ledger, .ok r)
              obtained := s.obtained ++ [Issued.mk c.node r] }.setCall k
                { c with guard := some ⟨r, false⟩, pc := .starting }
          | (ledger, .error e) =>
            { s with session := s.session.keep c.node (ledger, .error e) }.setCall k
              { c with pc := .leaving .budget }
      else none
  | .emitted k => (s.calls[k]?).bind fun c => stepEmitted s k c
  | .refused k => (s.calls[k]?).bind fun c => stepRefused cfg s k c
  | .unsent k =>
    (s.calls[k]?).bind fun c =>
      if c.pc = .dispatching then
        some (s.setCall k { c with
          pc := .finished (.failure (.notSent "cancelled before dispatch")) false })
      else none
  | .dispatch k =>
    (s.calls[k]?).bind fun c =>
      if c.pc = .dispatching then
        some (s.setCall k { c with
          guard := c.guard.map fun g => { g with dispatched := true }
          caps := c.caps ++ [c.maxTokens]
          pc := .streaming })
      else none
  | .stream k result isPartial =>
    (s.calls[k]?).bind fun c =>
      if c.pc = .streaming then
        some (s.setCall k { c with isPartial, pc := .finished result false })
      else none
  | .panicked k isPartial =>
    (s.calls[k]?).bind fun c =>
      if c.pc = .streaming then
        some (s.setCall k { c with
          isPartial, pc := .finished (.failure (.other "provider task panicked")) true })
      else none
  | .settle k =>
    (s.calls[k]?).bind fun c =>
      match c.pc with
      | .finished result panicked => c.guard.bind fun g =>
        (s.settle cfg c g result.charge).map fun t =>
          t.setCall k { c with guard := none, pc := .settled result panicked }
      | _ => none
  | .release k =>
    (s.calls[k]?).bind fun c =>
      match c.pc with
      | .settled result panicked =>
        some ({ s with slots := s.slots + 1 }.setCall k
          { c with permit := false, pc := .recording result panicked })
      | _ => none
  | .retry k jitter => (s.calls[k]?).bind fun c => stepRetry cfg s k c jitter
  | .wake k =>
    (s.calls[k]?).bind fun c =>
      if c.pc = .waiting then some (s.setCall k { c with pc := .acquiring }) else none
  | .unwind k =>
    (s.calls[k]?).bind fun c =>
      if c.pc.isAwait then some (s.setCall k { c with pc := .leaving .dropped }) else none
  | .leave k => (s.calls[k]?).bind fun c => stepLeave cfg s k c

/-- All executions of any number of calls. -/
def attempts (cfg : Config) : LTS.System State Label where
  init :=
    { session := (Ledger.sessions cfg.limits).init
      slots := cfg.limits.maxInflightRequests
      calls := []
      obtained := []
      log := [] }
  step := step cfg

end Kyora.Attempts
