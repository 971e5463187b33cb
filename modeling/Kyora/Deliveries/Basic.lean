import Kyora.Framework.Chain
import Kyora.Inbox.Basic
import Kyora.Trace.Event

/-! # Delivery records of one agent

  The deliveries of one mailbox and their records in the trace. A tool call
  (`receive`, `wait`, `cancel_agent`) takes messages and hands their record over
  while it holds the node's work mutex. The agent's own loop takes its batch
  first, in `user_turn` or `idle`, and locks the mutex in `deliver`, to hand
  the record over. The records are written by tasks, each after the one before
  it (`NodeCtx::record`).

  A tool call whose check refuses it takes nothing, so only calls that pass it
  have labels.
-/

namespace Kyora.Deliveries

open Trace (TraceEvent Posted)

/-! ### State -/

/-- Where the agent's own loop stands with the deliveries at a turn boundary. -/
inductive Turn where
  | ready
  /-- It has taken messages; `deliver` has not locked the work mutex yet. -/
  | took (taken : List Envelope)
  /-- It waits for its record, the `i`th of the chain, to be written. -/
  | writing (i : Nat)

/-- What the loop has taken without handing the record over. -/
def Turn.unrecorded : Turn → List Envelope
  | .took taken => taken
  | _ => []

structure State where
  inbox : Inbox.State
  turn : Turn
  /-- What the tool call that holds the work mutex has taken, and how. -/
  held : Option (List Envelope × Delivery)
  /-- The message records of the node, each behind the one before it. -/
  recorded : List (Chain.Task TraceEvent)
  /-- The records of these tasks, in trace order. -/
  trace : List TraceEvent

/-- What the tool call in progress has taken without handing the record over. -/
def State.holding (s : State) : List Envelope :=
  match s.held with
  | some (taken, _) => taken
  | none => []

/-! ### Labels -/

/-- A tool call on a clone of the agent's context. -/
inductive Taker where
  | receive
  /-- `wait_via`, for a wait or for the cancellation of a child. -/
  | wait (done : Finset NodeId) (cancel : Bool)

/-- What the call selects. -/
def Taker.pick : Taker → Inbox.Pick
  | .receive => .all
  | .wait done _ => .senders done

def Taker.via : Taker → Delivery
  | .receive => .receive
  | .wait _ cancel => if cancel then .cancel else .wait

inductive Label where
  /-- A step of another task on the mailbox. -/
  | inbox (l : Inbox.Label)
  /-- `user_turn` takes a batch. -/
  | userTurn
  /-- `idle` takes a batch, or finds none. -/
  | idle (shut : Bool)
  /-- `deliver` locks the work mutex and hands its record over. -/
  | deliver
  /-- The record of the turn is written. -/
  | written
  /-- A tool call locks the work mutex and takes a batch. -/
  | take (call : Taker)
  /-- It hands the record over and unlocks. -/
  | handOver
  /-- `wait_via` stages the notice of a child, under the work mutex. -/
  | stage (o : Inbox.Outcome) (id : Nat) (sentAt : Int)
  /-- The task of a record starts to write it. -/
  | start (i : Nat)
  /-- Its record is written, and a notice is queued. -/
  | finish (i : Nat)

/-- The steps of other tasks on the mailbox. -/
def isForeign : Inbox.Label → Bool
  | .take _ | .idle _ | .stage _ _ | .conclude _ => false
  | _ => true

/-! ### Steps -/

/-- Takes a batch. -/
def State.take (cfg : Inbox.Config) (s : State) (pick : Inbox.Pick) :
    Option (Inbox.State × List Envelope) :=
  (Mailbox.take s.inbox.box cfg.limits.deliveryChars pick.test (Envelope.size cfg.names)).map
    fun r => (s.inbox.handOver cfg r.1 r.2, r.2.taken)

/-- `record_delivery`: the record joins the chain. -/
def State.record (cfg : Inbox.Config) (s : State) (taken : List Envelope) (via : Delivery) :
    State :=
  { s with recorded :=
      Chain.submit s.recorded (.messageDelivered cfg.me (taken.map Envelope.id) via) }

/-- What the mailbox's `idle` hands over. -/
def stepIdle (cfg : Inbox.Config) (s : State) (shut : Bool) : Option State :=
  (Mailbox.idle s.inbox.box shut cfg.limits.deliveryChars (Envelope.size cfg.names)).map fun r =>
    match r.2 with
    | .deliver b =>
      { s with inbox := s.inbox.handOver cfg r.1 b, turn := .took b.taken }
    | _ => { s with inbox := { s.inbox with box := r.1 } }

/-- `deliver` locks the work mutex to record what was taken, if anything was. -/
def stepDeliver (cfg : Inbox.Config) (s : State) : Option State :=
  match s.turn with
  | .took taken =>
    if taken.isEmpty then some { s with turn := .ready }
    else match s.held with
      | some _ => none
      | none => some { s.record cfg taken .turn with turn := .writing s.recorded.length }
  | _ => none

/-- A batch that is empty needs no record. -/
def stepTake (cfg : Inbox.Config) (s : State) (call : Taker) : Option State :=
  match s.held with
  | some _ => none
  | none => (s.take cfg call.pick).map fun (inbox, taken) =>
    { s with inbox, held := if taken.isEmpty then none else some (taken, call.via) }

def stepStage (cfg : Inbox.Config) (s : State) (o : Inbox.Outcome) (id : Nat) (sentAt : Int) :
    Option State :=
  match s.held with
  | some _ => none
  | none => (Inbox.step cfg s.inbox (.stage o id)).map fun inbox =>
    if (Mailbox.stage s.inbox.box o.node).2 then
      { s with
        inbox
        recorded := Chain.submit s.recorded
          (.messageSent ⟨Inbox.notice cfg id o, sentAt⟩) }
    else { s with inbox }

/-- The record goes to the trace; a staged notice is pushed after it. -/
def stepFinish (cfg : Inbox.Config) (s : State) (i : Nat) : Option State :=
  (Chain.finish s.recorded i).bind fun (event, recorded) =>
    let s := { s with recorded, trace := s.trace ++ [event] }
    match event with
    | .messageSent message =>
      (Inbox.step cfg s.inbox (.conclude message.envelope)).map fun inbox => { s with inbox }
    | _ => some s

/-- The task of the turn's record is done. -/
def isWritten (s : State) (i : Nat) : Bool := (s.recorded[i]?).any fun t => t.pc == .done

def step (cfg : Inbox.Config) (s : State) : Label → Option State
  | .inbox l =>
    if isForeign l then (Inbox.step cfg s.inbox l).map fun inbox => { s with inbox } else none
  | .userTurn =>
    match s.turn with
    | .ready => (s.take cfg .all).map fun (inbox, taken) => { s with inbox, turn := .took taken }
    | _ => none
  | .idle shut =>
    match s.turn with
    | .ready => stepIdle cfg s shut
    | _ => none
  | .deliver => stepDeliver cfg s
  | .written =>
    match s.turn with
    | .writing i => if isWritten s i then some { s with turn := .ready } else none
    | _ => none
  | .take call => stepTake cfg s call
  | .handOver =>
    s.held.map fun (taken, via) => { s.record cfg taken via with held := none }
  | .stage o id sentAt => stepStage cfg s o id sentAt
  | .start i => (Chain.start s.recorded i).map fun recorded => { s with recorded }
  | .finish i => stepFinish cfg s i

/-- All interleavings of the deliveries of one agent. -/
def deliveries (cfg : Inbox.Config) : LTS.System State Label where
  init := { inbox := .init, turn := .ready, held := none, recorded := [], trace := [] }
  step := step cfg

end Kyora.Deliveries
