import Kyora.Framework.System
import Kyora.Trace.Event

/-! # The durable trace sink

  `TraceSink::with_store`: one writer task takes the commands of concurrent
  `emit` and `finish` calls from a bounded queue, hands each record to the
  caller's storage and spawns a task for its acknowledgement. Every await of
  the source separates two labels, so calls, acknowledgements and the writer
  interleave freely.

  Storage is the environment: a label says when a store future completes and
  with what. It may return an error or panic.
-/

namespace Kyora.Sink

open Trace (TraceEvent TraceRecord)

/-- `defaults::WRITER_CAPACITY`. -/
def writerCapacity : Nat := 256

/-! ### State -/

/-- What the receiver of a reply finds in its channel. -/
inductive Reply where
  | pending
  | sent (result : Except String Unit)
  /-- The sender was dropped without a reply. -/
  | lost

/-- Where a call of `emit` stands. -/
inductive EmitPc where
  /-- Waiting for room in the queue. -/
  | sending
  | awaiting
  | returned (result : Except String Unit)
  | dropped

structure Emit where
  event : TraceEvent
  pc : EmitPc
  reply : Reply

/-- Where a call of `finish` stands. -/
inductive FinishPc where
  /-- Waiting for the lock on the join handle. -/
  | locking
  | sending
  | awaiting
  /-- Waiting for the writer task to end. -/
  | joining (result : Except String Unit)
  | returned (result : Except String Unit)
  | dropped

structure Finish where
  pc : FinishPc
  reply : Reply

/-- A command for the writer, with the call that sent it. -/
inductive WriteCommand where
  | event (call : Nat)
  | finish (call : Nat)
  deriving DecidableEq, Repr

/-- The emit call of a command. -/
def WriteCommand.event? : WriteCommand → Option Nat
  | .event k => some k
  | .finish _ => none

/-- What a store future does in the end. -/
inductive Completion where
  | ok
  | err (error : String)
  | panicked
  deriving DecidableEq, Repr

/-- A store that panics has failed like one that returns an error. -/
def Completion.result : Completion → Except String Unit
  | .ok => .ok ()
  | .err error => .error error
  | .panicked => .error "trace store panicked"

/-- Where an acknowledgement task stands, with the result of its future. -/
inductive TaskPc where
  | storing
  | stored (result : Except String Unit)
  /-- An error has been latched. -/
  | latched (result : Except String Unit)
  | acknowledged (result : Except String Unit)
  | ended (result : Except String Unit)
  | reaped (result : Except String Unit)
  /-- The task did not complete. -/
  | aborted
  /-- The writer found that it did not. -/
  | lost

/-- The result of the store future. -/
def TaskPc.result : TaskPc → Option (Except String Unit)
  | .storing | .aborted | .lost => none
  | .stored r | .latched r | .acknowledged r | .ended r | .reaped r => some r

/-- The writer no longer waits for the task. -/
def TaskPc.isReaped : TaskPc → Bool
  | .reaped _ | .lost => true
  | _ => false

/-- One record handed to the storage, and the task that waits for it. -/
structure AckTask where
  record : TraceRecord
  call : Nat
  pc : TaskPc

inductive WriterPc where
  | receiving
  | handling (call : Nat)
  /-- Joining the acknowledgement tasks for a call of `finish`. -/
  | finishing (call : Nat)
  /-- The last reply is sent. -/
  | leaving
  /-- The queue is closed. -/
  | exited
  deriving DecidableEq, Repr

structure State where
  emits : List Emit
  finishes : List Finish
  /-- The call of `finish` that holds the lock on the join handle. -/
  holder : Option Nat
  /-- The call of `finish` that took the join handle. -/
  taken : Option Nat
  queue : List WriteCommand
  writer : WriterPc
  seq : Nat
  /-- Every record handed to the storage, in order. -/
  tasks : List AckTask
  failed : Option String
  /-- Every command the writer received, in order. -/
  received : List WriteCommand
  /-- Every error that was to be latched, in order. -/
  errors : List String

namespace State

def setEmit (s : State) (k : Nat) (e : Emit) : State := { s with emits := s.emits.set k e }

def setFinish (s : State) (j : Nat) (f : Finish) : State :=
  { s with finishes := s.finishes.set j f }

def setTask (s : State) (i : Nat) (t : AckTask) : State := { s with tasks := s.tasks.set i t }

/-- Latches the first error. -/
def latch (s : State) (error : String) : State :=
  { s with failed := some (s.failed.getD error), errors := s.errors ++ [error] }

/-- Answers an event. -/
def reply (s : State) (k : Nat) (result : Except String Unit) : State :=
  { s with emits := s.emits.modify k fun e => { e with reply := .sent result } }

def replyFinish (s : State) (j : Nat) (result : Except String Unit) : State :=
  { s with finishes := s.finishes.modify j fun f => { f with reply := .sent result } }

end State

/-! ### Labels -/

inductive Label where
  | emit (event : TraceEvent)
  /-- The command of an emit enters the queue, or finds it closed. -/
  | send (k : Nat)
  | answered (k : Nat)
  /-- The future of an emit is dropped. -/
  | drop (k : Nat)
  | finish
  | lock (j : Nat)
  | sendFinish (j : Nat)
  | answeredFinish (j : Nat)
  | joined (j : Nat)
  | dropFinish (j : Nat)
  /-- The writer takes the next command and reaps the tasks that ended. -/
  | receive
  /-- The writer handles an event; `ts` is the time it reads. -/
  | handle (ts : String)
  | reap (i : Nat)
  /-- All acknowledgements are joined. -/
  | reply
  | exit
  /-- A store future completes. -/
  | complete (i : Nat) (completion : Completion)
  | latch (i : Nat)
  | ack (i : Nat)
  | ended (i : Nat)

/-! ### Calls -/

/-- An ephemeral event is only broadcast. -/
def stepEmit (s : State) (event : TraceEvent) : State :=
  { s with emits := s.emits ++
    [⟨event, if event.ephemeral then .returned (.ok ()) else .sending, .pending⟩] }

def stepSend (s : State) (k : Nat) (e : Emit) : Option State :=
  match e.pc with
  | .sending =>
    if s.writer = .exited then
      some (s.setEmit k { e with pc := .returned (.error "channel closed") })
    else if s.queue.length < writerCapacity then
      some { s.setEmit k { e with pc := .awaiting } with queue := s.queue ++ [.event k] }
    else none
  | _ => none

def stepAnswered (s : State) (k : Nat) (e : Emit) : Option State :=
  match e.pc, e.reply with
  | .awaiting, .sent result => some (s.setEmit k { e with pc := .returned result })
  | .awaiting, .lost => some (s.setEmit k { e with pc := .returned (.error "channel closed") })
  | _, _ => none

def stepDrop (s : State) (k : Nat) (e : Emit) : Option State :=
  match e.pc with
  | .sending | .awaiting => some (s.setEmit k { e with pc := .dropped })
  | _ => none

/-- Only the first call takes the join handle and goes on with the lock. -/
def stepLock (s : State) (j : Nat) (f : Finish) : Option State :=
  match f.pc, s.holder with
  | .locking, none =>
    if s.taken.isNone then
      some { s.setFinish j { f with pc := .sending } with taken := some j, holder := some j }
    else some (s.setFinish j { f with pc := .returned (.ok ()) })
  | _, _ => none

def stepSendFinish (s : State) (j : Nat) (f : Finish) : Option State :=
  match f.pc with
  | .sending =>
    if s.writer = .exited then
      some { s.setFinish j { f with pc := .returned (.error "channel closed") } with
        holder := none }
    else if s.queue.length < writerCapacity then
      some { s.setFinish j { f with pc := .awaiting } with queue := s.queue ++ [.finish j] }
    else none
  | _ => none

def stepAnsweredFinish (s : State) (j : Nat) (f : Finish) : Option State :=
  match f.pc, f.reply with
  | .awaiting, .sent result => some (s.setFinish j { f with pc := .joining result })
  | .awaiting, .lost =>
    some { s.setFinish j { f with pc := .returned (.error "channel closed") } with
      holder := none }
  | _, _ => none

def stepJoined (s : State) (j : Nat) (f : Finish) : Option State :=
  match f.pc with
  | .joining result =>
    if s.writer = .exited then
      some { s.setFinish j { f with pc := .returned result } with holder := none }
    else none
  | _ => none

def stepDropFinish (s : State) (j : Nat) (f : Finish) : Option State :=
  match f.pc with
  | .locking => some (s.setFinish j { f with pc := .dropped })
  | .sending | .awaiting | .joining _ =>
    some { s.setFinish j { f with pc := .dropped } with holder := none }
  | _ => none

/-! ### The writer -/

/-- A joined task leaves the set. -/
def AckTask.reap (t : AckTask) : AckTask :=
  match t.pc with
  | .ended r => { t with pc := .reaped r }
  | .aborted => { t with pc := .lost }
  | _ => t

/-- Whether the task was dropped before it completed. -/
def AckTask.isAborted (t : AckTask) : Bool :=
  match t.pc with
  | .aborted => true
  | _ => false

/-- An acknowledgement task that did not complete dropped its reply; that is a
    storage failure too. -/
def State.lost (s : State) : State :=
  if s.tasks.any AckTask.isAborted then s.latch "trace acknowledgement was lost" else s

def stepReceive (s : State) : Option State :=
  match s.writer, s.queue with
  | .receiving, command :: queue =>
    some { s.lost with
      queue
      received := s.received ++ [command]
      tasks := s.tasks.map AckTask.reap
      writer := match command with
        | .event k => .handling k
        | .finish j => .finishing j }
  | _, _ => none

/-- After a failure nothing else is stored. -/
def stepHandle (s : State) (ts : String) : Option State :=
  match s.writer with
  | .handling k =>
    match s.failed with
    | some error => some { s.reply k (.error error) with writer := .receiving }
    | none => (s.emits[k]?).map fun e =>
      { s with
        seq := s.seq + 1
        tasks := s.tasks ++ [⟨.new e.event (some s.seq) ts, k, .storing⟩]
        writer := .receiving }
  | _ => none

/-- `join_next` in the handling of a finish. -/
def stepReap (s : State) (i : Nat) (t : AckTask) : Option State :=
  match s.writer, t.pc with
  | .finishing _, .ended r => some (s.setTask i { t with pc := .reaped r })
  | .finishing _, .aborted =>
    some ((s.latch "trace acknowledgement was lost").setTask i { t with pc := .lost })
  | _, _ => none

def stepReply (s : State) : Option State :=
  match s.writer with
  | .finishing j =>
    if s.tasks.all fun t => t.pc.isReaped then
      let result := match s.failed with
        | some error => .error error
        | none => .ok ()
      some { s.replyFinish j result with writer := .leaving }
    else none
  | _ => none

/-- The receiver is dropped, and with it the replies of the commands left in
    the queue. -/
def stepExit (s : State) : Option State :=
  match s.writer with
  | .leaving =>
    some { s with
      writer := .exited
      queue := []
      emits := s.emits.mapIdx fun k e =>
        if .event k ∈ s.queue then { e with reply := .lost } else e
      finishes := s.finishes.mapIdx fun j f =>
        if .finish j ∈ s.queue then { f with reply := .lost } else f }
  | _ => none

/-! ### Acknowledgement tasks -/

def stepComplete (s : State) (i : Nat) (t : AckTask) (completion : Completion) :
    Option State :=
  match t.pc with
  | .storing => some (s.setTask i { t with pc := .stored completion.result })
  | _ => none

def stepLatch (s : State) (i : Nat) (t : AckTask) : Option State :=
  match t.pc with
  | .stored (.error error) =>
    some ((s.latch error).setTask i { t with pc := .latched (.error error) })
  | .stored (.ok ()) => some (s.setTask i { t with pc := .latched (.ok ()) })
  | _ => none

def stepAck (s : State) (i : Nat) (t : AckTask) : Option State :=
  match t.pc with
  | .latched r => some ((s.reply t.call r).setTask i { t with pc := .acknowledged r })
  | _ => none

def stepEnded (s : State) (i : Nat) (t : AckTask) : Option State :=
  match t.pc with
  | .acknowledged r => some (s.setTask i { t with pc := .ended r })
  | _ => none

def step (s : State) : Label → Option State
  | .emit event => some (stepEmit s event)
  | .send k => (s.emits[k]?).bind (stepSend s k)
  | .answered k => (s.emits[k]?).bind (stepAnswered s k)
  | .drop k => (s.emits[k]?).bind (stepDrop s k)
  | .finish => some { s with finishes := s.finishes ++ [⟨.locking, .pending⟩] }
  | .lock j => (s.finishes[j]?).bind (stepLock s j)
  | .sendFinish j => (s.finishes[j]?).bind (stepSendFinish s j)
  | .answeredFinish j => (s.finishes[j]?).bind (stepAnsweredFinish s j)
  | .joined j => (s.finishes[j]?).bind (stepJoined s j)
  | .dropFinish j => (s.finishes[j]?).bind (stepDropFinish s j)
  | .receive => stepReceive s
  | .handle ts => stepHandle s ts
  | .reap i => (s.tasks[i]?).bind (stepReap s i)
  | .reply => stepReply s
  | .exit => stepExit s
  | .complete i completion => (s.tasks[i]?).bind fun t => stepComplete s i t completion
  | .latch i => (s.tasks[i]?).bind (stepLatch s i)
  | .ack i => (s.tasks[i]?).bind (stepAck s i)
  | .ended i => (s.tasks[i]?).bind (stepEnded s i)

/-- All uses of one sink. -/
def sink : LTS.System State Label where
  init :=
    { emits := []
      finishes := []
      holder := none
      taken := none
      queue := []
      writer := .receiving
      seq := 0
      tasks := []
      failed := none
      received := []
      errors := [] }
  step := step

end Kyora.Sink
