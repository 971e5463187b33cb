import Kyora.Framework.Chain
import Kyora.Framework.Forest
import Kyora.Inbox.Order

/-! # The agents of a run

  All agents of a run with their mailboxes. A send is accepted under the
  sender's work mutex and goes through the sender's chain: recorded and pushed
  only after its previous one was pushed. An agent that ends closes its work,
  joins its tasks, and then publishes its outcome; every ancestor can see that
  at once. Each inbox is one of `Kyora.Inbox`, so what a label does to it is
  said there.
-/

namespace Kyora.Agents

/-! ### State -/

/-- The constants of a run. -/
structure Config where
  limits : Limits
  names : NodeId → String

/-- The constants that concern one mailbox. -/
def Config.inbox (cfg : Config) (me : NodeId) : Inbox.Config := ⟨me, cfg.limits, cfg.names⟩

/-- One agent: its entry in the directory and its work. -/
structure Agent where
  parent : Option NodeId
  /-- No more work is admitted, and the tasks are being joined. -/
  closed : Bool
  /-- Its accepted sends in the order of acceptance, with their tasks. -/
  sends : List (Chain.Task Envelope)

structure State where
  agents : NodeId → Option Agent
  inbox : NodeId → Inbox.State
  /-- The counter of message ids. -/
  nextMessage : Nat

/-- The root agent alone. -/
def State.init : State where
  agents := Function.update (fun _ => none) 0 (some ⟨none, false, []⟩)
  inbox := fun _ => .init
  nextMessage := 0

def State.setAgent (s : State) (c : NodeId) (agent : Agent) : State :=
  { s with agents := Function.update s.agents c (some agent) }

/-- The accepted sends of an agent. -/
def State.sends (s : State) (c : NodeId) : List (Chain.Task Envelope) :=
  match s.agents c with
  | some agent => agent.sends
  | none => []

/-- Parent links of the directory. -/
def State.links (s : State) : Forest.Links := fun c => (s.agents c).map Agent.parent

/-- The proper ancestors of `c`, whose parent is `parent`. -/
def State.ancestors (s : State) (c : NodeId) (parent : Option NodeId) : Option (List NodeId) :=
  Forest.climb s.links c parent

/-! ### Labels -/

inductive Label where
  /-- `spawn_agent`: a child owned by its parent or by one of its cells. -/
  | spawn (parent child : NodeId) (kin : Inbox.Kin)
  | send (me to_ : NodeId) (id : Nat) (body : String)
  /-- The task of a send starts to write its record. -/
  | record (me : NodeId) (i : Nat)
  /-- The record is acknowledged and the message is pushed. -/
  | push (me : NodeId) (i : Nat)
  /-- `join_descendants` closes an agent's work. -/
  | close (me : NodeId)
  /-- The tasks are joined and the outcome is published. -/
  | publish (o : Inbox.Outcome)
  /-- The notice of a node-owned child is pushed to its parent. -/
  | notify (c : NodeId) (id : Nat)
  /-- A step of an agent, or of one of its tasks, on its own mailbox. -/
  | own (me : NodeId) (l : Inbox.Label)

/-- The steps that concern one mailbox only. -/
def isOwn : Inbox.Label → Bool
  | .expect _ | .stage _ _ | .conclude _ | .take _ | .idle _ | .close | .charge _ | .saw _
  | .newTurn | .wake _ => true
  | _ => false

/-! ### Steps -/

/-- A step of one inbox. -/
def State.act (cfg : Config) (s : State) (me : NodeId) (l : Inbox.Label) : Option State :=
  (Inbox.step (cfg.inbox me) (s.inbox me) l).map fun i =>
    { s with inbox := Function.update s.inbox me i }

/-- The same step in several inboxes. -/
def State.actAll (cfg : Config) (s : State) (nodes : List NodeId) (l : Inbox.Label) :
    Option State :=
  match nodes with
  | [] => some s
  | me :: nodes => (s.act cfg me l).bind fun t => t.actAll cfg nodes l

/-- The spawn a message to `to_` belongs to. Addressing is limited to the
    parent, the children and the siblings; `none` refuses. -/
def State.kin (s : State) (me to_ : NodeId) : Option (Option NodeId) :=
  match s.agents me, s.agents to_ with
  | some self, some target =>
    if to_ = me then none
    else if self.parent = some to_ then some (some me)
    else if target.parent = some me then some (some to_)
    else if self.parent.isSome ∧ self.parent = target.parent then some none
    else none
  | _, _ => none

/-- A send that passed the checks of the sender's side. -/
def State.accept (cfg : Config) (s : State) (agent : Agent) (e : Envelope) : Option State :=
  match Mailbox.reserve (s.inbox e.to_).box cfg.limits.mailboxCapacity with
  | .error _ => some s
  | .ok _ =>
    -- Other tasks draw from the counter as well.
    if s.nextMessage ≤ e.id then
      (s.act cfg e.to_ (.accept e)).map fun t =>
        { t with nextMessage := e.id + 1 }.setAgent e.from_
          { agent with sends := Chain.submit agent.sends e }
    else none

def step (cfg : Config) (s : State) : Label → Option State
  | .spawn p c kin =>
    match s.agents p with
    | some agent =>
      -- The ledger hands out increasing ids.
      if agent.closed = false ∧ s.agents c = none ∧ p < c ∧ kin ≠ .deeper then
        (s.ancestors p agent.parent).bind fun above =>
          (s.act cfg p (.register c kin)).bind fun t =>
            (t.actAll cfg above (.register c .deeper)).map fun t =>
              t.setAgent c ⟨some p, false, []⟩
      else none
    | none => none
  | .send me to_ id body =>
    match s.agents me with
    | some agent =>
      if body.length > cfg.limits.messageChars ∨ agent.closed then some s
      else match s.kin me to_ with
        | none => some s
        | some spawn => s.accept cfg agent ⟨id, me, to_, .message, body, spawn, none⟩
    | none => none
  | .record me i =>
    (s.agents me).bind fun agent => (Chain.start agent.sends i).map fun sends =>
      s.setAgent me { agent with sends }
  | .push me i =>
    (s.agents me).bind fun agent => (Chain.finish agent.sends i).bind fun r =>
      (s.act cfg r.1.to_ (.deliver r.1)).map fun t =>
        t.setAgent me { agent with sends := r.2 }
  | .close me =>
    match s.agents me with
    | some agent =>
      if agent.closed = false then
        (s.ancestors me agent.parent).bind fun above =>
          (s.actAll cfg above (.join me)).map fun t => t.setAgent me { agent with closed := true }
      else none
    | none => none
  | .publish o =>
    match s.agents o.node with
    | some agent =>
      -- The join waits for every task; the sends are among them.
      if agent.closed = true ∧ Chain.unfinished agent.sends = [] then
        (s.ancestors o.node agent.parent).bind fun above => s.actAll cfg above (.publish o)
      else none
    | none => none
  | .notify c id =>
    (s.agents c).bind fun agent => agent.parent.bind fun p => s.act cfg p (.notify c id)
  | .own me l =>
    if (s.agents me).isSome ∧ isOwn l then s.act cfg me l else none

/-- All interleavings of the agents of a run. -/
def agents (cfg : Config) : LTS.System State Label where
  init := .init
  step := step cfg

end Kyora.Agents
