import Kyora.Inbox.Order

/-! # Waiting calls

  The calls of an agent that may park on its mailbox: the end of a turn
  (`idle`), `receive`, and `wait_via`, which also serves `cancel_agent` on a
  direct child. Each runs as its own task, in the steps between which other
  tasks may run: it subscribes to the watch channel, inspects the mailbox and
  the outcomes of its targets, and parks.

  The node's work mutex is not part of the model: every interleaving it rules
  out is allowed here.
-/

namespace Kyora.Calls

/-! ### Programs -/

/-- What `wait_via` returns. -/
structure Waited where
  /-- What the finished children had queued, in arrival order. -/
  messages : List Envelope
  /-- The targets that finished; their outcomes are the published ones. -/
  finished : Finset NodeId
  /-- Finished children with messages left queued, with multiplicity. -/
  deferred : Multiset NodeId
  /-- The targets that were still running. -/
  running : Finset NodeId

/-- Where `Runtime::idle` stands. -/
inductive IdlePc where
  | start
  | subscribed (seen : Nat)
  | parked (seen : Nat)
  | returned (batch : Option (List Envelope))

/-- Where `NodeCtx::receive` stands. An error is `none`. -/
inductive ReceivePc where
  | start
  | subscribed (seen : Nat)
  | parked (seen : Nat)
  | returned (taken : Option (List Envelope))

/-- Where `NodeCtx::wait_via` stands. The three loops over the targets keep
    the targets they have not visited yet. -/
inductive WaitPc where
  | start (agents : Option (Finset NodeId))
  | targeting (agents : Option (Finset NodeId)) (children : NodeId → Bool)
  | looping (targets : Finset NodeId)
  | staging (targets : Finset NodeId) (seen : Nat) (todo : Finset NodeId)
  | checking (targets : Finset NodeId) (seen : Nat) (todo : Finset NodeId)
  | parked (targets : Finset NodeId) (seen : Nat)
  | filtering (targets todo done : Finset NodeId)
  | taking (targets done : Finset NodeId)
  | returned (waited : Waited)
  | failed

inductive Call where
  | idle (shut : Bool) (pc : IdlePc)
  | receive (pc : ReceivePc)
  | wait (pc : WaitPc)

/-- A call that just started. -/
def Call.isStart : Call → Bool
  | .idle _ .start => true
  | .receive .start => true
  | .wait (.start _) => true
  | _ => false

/-! ### State -/

/-- One mailbox with its users, and the calls that were made. -/
structure State where
  inbox : Inbox.State
  calls : Nat → Option Call

def State.setCall (s : State) (k : Nat) (c : Call) : State :=
  { s with calls := Function.update s.calls k (some c) }

/-- A registered child of the agent, as opposed to a deeper descendant. -/
def isChild (i : Inbox.State) (c : NodeId) : Bool :=
  match i.kids c with
  | some k => k.kin != .deeper
  | none => false

/-- The outcome is published and no terminal entry is awaited. -/
def finished (i : Inbox.State) (c : NodeId) : Bool :=
  (i.outcome c).isSome && !Mailbox.isAwaiting i.box c

/-! ### Labels -/

inductive Label where
  /-- A step of another task on the mailbox. -/
  | inbox (l : Inbox.Label)
  | call (k : Nat) (c : Call)
  /-- The next action of a call outside the loops over its targets. -/
  | advance (k : Nat)
  /-- The visit of one target; `id` is the next message id. -/
  | target (k : Nat) (c : NodeId) (id : Nat)
  /-- A parked call sees a newer version. -/
  | woken (k : Nat)
  | timeout (k : Nat)
  /-- The node was stopped, or a check of its admission fails. -/
  | cancelled (k : Nat)

/-! ### Steps -/

/-- The next action of `idle`. -/
def stepIdle (cfg : Inbox.Config) (s : State) (k : Nat) (shut : Bool) : IdlePc → Option State
  | .start => some (s.setCall k (.idle shut (.subscribed s.inbox.version)))
  | .subscribed seen =>
    (Inbox.step cfg s.inbox (.idle shut)).bind fun inbox =>
      (Mailbox.idle s.inbox.box shut cfg.limits.deliveryChars (Envelope.size cfg.names)).map
        fun r => { s with inbox }.setCall k (.idle shut (match r.2 with
          | .deliver b => .returned (some b.taken)
          | .done => .returned none
          | .wait => .parked seen))
  | _ => none

/-- The next action of `receive`. -/
def stepReceive (cfg : Inbox.Config) (s : State) (k : Nat) : ReceivePc → Option State
  | .start => some (s.setCall k (.receive (.subscribed s.inbox.version)))
  | .subscribed seen =>
    (Inbox.step cfg s.inbox (.take .all)).bind fun inbox =>
      (Mailbox.take s.inbox.box cfg.limits.deliveryChars (Inbox.Pick.test .all)
        (Envelope.size cfg.names)).map fun r =>
          { s with inbox }.setCall k (.receive (
            if !r.2.taken.isEmpty then .returned (some r.2.taken)
            -- Messages are waiting, but this turn's budget is spent.
            else if r.2.queued > 0 then .returned (some [])
            else if Mailbox.isClosed r.1 then .returned none
            else .parked seen))
  | _ => none

/-- The next action of `wait_via` outside its loops over the targets. -/
def stepWait (cfg : Inbox.Config) (s : State) (k : Nat) : WaitPc → Option State
  | .start agents => some (s.setCall k (.wait (.targeting agents (isChild s.inbox))))
  | .targeting agents children =>
    some (s.setCall k (.wait (match agents with
      | some agents => if ∀ c ∈ agents, children c then .looping agents else .failed
      | none => .looping ((Mailbox.outstanding s.inbox.box).filter fun c => children c))))
  | .looping targets => some (s.setCall k (.wait (.staging targets s.inbox.version targets)))
  | .staging targets seen todo =>
    if todo = ∅ then some (s.setCall k (.wait (.checking targets seen targets))) else none
  | .checking targets _ todo =>
    if todo = ∅ then some (s.setCall k (.wait (.filtering targets targets ∅))) else none
  | .filtering targets todo done =>
    if todo = ∅ then some (s.setCall k (.wait (.taking targets done))) else none
  | .taking targets done =>
    (Inbox.step cfg s.inbox (.take (.senders done))).bind fun inbox =>
      (Mailbox.take s.inbox.box cfg.limits.deliveryChars (Inbox.Pick.test (.senders done))
        (Envelope.size cfg.names)).map fun r =>
          { s with inbox }.setCall k (.wait (.returned {
            messages := r.2.taken
            finished := done
            deferred := r.2.left
            running := targets \ done }))
  | _ => none

/-- The visit of one target by `wait_via`. -/
def visit (cfg : Inbox.Config) (s : State) (k : Nat) (c : NodeId) (id : Nat) :
    WaitPc → Option State
  | .staging targets seen todo =>
    if c ∈ todo then
      -- A published outcome is staged, once; reading and staging are one step
      -- here because an outcome never changes after it is published.
      (match s.inbox.outcome c with
        | some o => Inbox.step cfg s.inbox (.stage o id)
        | none => some s.inbox).map fun inbox =>
          { s with inbox }.setCall k (.wait (.staging targets seen (todo.erase c)))
    else none
  | .checking targets seen todo =>
    if c ∈ todo then
      some (s.setCall k (.wait (
        if finished s.inbox c then .checking targets seen (todo.erase c)
        else .parked targets seen)))
    else none
  | .filtering targets todo done =>
    if c ∈ todo then
      some (s.setCall k (.wait (.filtering targets (todo.erase c)
        (if finished s.inbox c then insert c done else done))))
    else none
  | _ => none

/-- A call that parks until the version differs from the one it has seen. -/
def Call.parked : Call → Option Nat
  | .idle _ (.parked seen) => some seen
  | .receive (.parked seen) => some seen
  | .wait (.parked _ seen) => some seen
  | _ => none

/-- The call goes round its loop. -/
def Call.again : Call → Call
  | .idle shut _ => .idle shut .start
  | .receive _ => .receive .start
  | .wait (.parked targets _) => .wait (.looping targets)
  | c => c

/-- A parked call whose time is up. -/
def Call.timedOut : Call → Call
  | .idle shut _ => .idle shut (.returned none)
  | .receive _ => .receive (.returned (some []))
  | .wait (.parked targets _) => .wait (.filtering targets targets ∅)
  | c => c

/-- Where a call may notice that its node was stopped. -/
def Call.cancelled : Call → Option Call
  | .idle shut (.parked _) => some (.idle shut (.returned none))
  | .receive (.subscribed _) => some (.receive (.returned none))
  | .receive (.parked _) => some (.receive (.returned none))
  | .wait (.looping _) => some (.wait .failed)
  | .wait (.staging _ _ _) => some (.wait .failed)
  | .wait (.parked _ _) => some (.wait .failed)
  | .wait (.taking _ _) => some (.wait .failed)
  | _ => none

def step (cfg : Inbox.Config) (s : State) : Label → Option State
  | .inbox l => (Inbox.step cfg s.inbox l).map fun inbox => { s with inbox }
  | .call k c =>
    if s.calls k = none ∧ c.isStart then some (s.setCall k c) else none
  | .advance k =>
    match s.calls k with
    | some (.idle shut pc) => stepIdle cfg s k shut pc
    | some (.receive pc) => stepReceive cfg s k pc
    | some (.wait pc) => stepWait cfg s k pc
    | none => none
  | .target k c id =>
    match s.calls k with
    | some (.wait pc) => visit cfg s k c id pc
    | _ => none
  | .woken k =>
    (s.calls k).bind fun c => c.parked.bind fun seen =>
      if s.inbox.version = seen then none else some (s.setCall k c.again)
  | .timeout k =>
    (s.calls k).bind fun c => c.parked.map fun _ => s.setCall k c.timedOut
  | .cancelled k =>
    (s.calls k).bind fun c => c.cancelled.map fun c' => s.setCall k c'

/-- All interleavings of the calls of one agent with the tasks on its mailbox. -/
def calls (cfg : Inbox.Config) : LTS.System State Label where
  init := { inbox := .init, calls := fun _ => none }
  step := step cfg

end Kyora.Calls
